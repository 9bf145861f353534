import SpirvText.Proofs.Instruction.RoundTrip

/-!
# Constants and the types they are read with

The form of a literal tells how its words are written, and it alone: the types of a module are not
at hand then.  Reading goes by the type.  The two agree for integers of any width and for
floating-point numbers of 16, 32 and 64 bits, and for these only: the bits of a floating-point
constant can be given as an integer for narrower types too, but what is written for them is a number
with a point, which those types do not take.
-/

namespace SpirvText

open Lexer

namespace Supply

variable {types : List (Reg × ScalarType)} {type : Reg} {scalar : ScalarType} {value : Literal}

/-- The text of a literal is one token, which is read as that literal for a constant of the given
type. -/
def ReadsBack (types : List (Reg × ScalarType)) (type : Reg) (value : Literal) : Prop :=
  ∃ u located, tokenize value.text = .ok located ∧ located.map (·.token) = [u, .eof] ∧
    ∀ line stop l, (ofLine types line stop).constant type [⟨u, l⟩] = .ok (value, [])

/-- A literal reads back if its text spells a token that stands for it. -/
theorem readsBack_of_spells {u : Token} (htype : types.lookup type = some scalar)
    (hu : Spells value.text.toList u) (hread : ∀ l, literalOf scalar ⟨u, l⟩ = .ok value) :
    ReadsBack types type value := by
  obtain ⟨located, hlocated, htokens⟩ := hu.reads 1
  exact ⟨u, located, hlocated, htokens, fun line stop l ↦
    constant_ofLine_eq_ok.mpr ⟨scalar, ⟨u, l⟩, htype, rfl, hread l⟩⟩

/-- The one token that the text of a literal is made of is the one that it spells. -/
theorem ReadsBack.literalOf {u : Token} (h : ReadsBack types type value)
    (htype : types.lookup type = some scalar) (hu : Spells value.text.toList u) (l : Nat) :
    literalOf scalar ⟨u, l⟩ = .ok value := by
  obtain ⟨u', located, hlocated, htokens, hread⟩ := h
  obtain ⟨located', hlocated', htokens'⟩ := hu.reads 1
  obtain rfl : located' = located := Except.ok.inj (hlocated'.symm.trans hlocated)
  obtain rfl : u = u' := (List.cons.inj (htokens'.symm.trans htokens)).1
  obtain ⟨scalar', t, hscalar', hitems, hliteral⟩ := constant_ofLine_eq_ok.mp (hread 1 ⟨.eof, 1⟩ l)
  obtain rfl : scalar = scalar' := Option.some.inj (htype.symm.trans hscalar')
  cases hitems
  exact hliteral

/-- No number with a point is read for a floating-point type of fewer than 16 bits. -/
theorem not_readsBack_of_width {width : UInt32} (hwidth : width = 1 ∨ width = 8)
    (htype : types.lookup type = some (.float width))
    (hholds : (ScalarType.float width).Holds value) :
    ¬ ReadsBack types type value := by
  intro hback
  obtain ⟨number, hnumber⟩ := ScalarType.exists_spells_float hwidth hholds
  have hliteral := hback.literalOf htype hnumber 1
  have hstored := Literal.width_of_ofFloat (mapError_eq_ok.mp hliteral)
  rcases hwidth with rfl | rfl <;> revert hstored <;> decide

/-- A constant that was read can be written whatever its type, and it is read back from what is
written just if its type is not a floating-point type of 1 or 8 bits. -/
theorem constant_reads_back_iff {line : Nat} {stop t : Located}
    (htype : types.lookup type = some scalar)
    (hread : (ofLine types line stop).constant type [t] = .ok (value, []))
    (result : Reg) (registry : Registry) :
    (value.define type result).layOut registry =
        ⟨[.reg type, .reg result, .constant value], .ok []⟩ ∧
      (ReadsBack types type value ↔ scalar ≠ .float 1 ∧ scalar ≠ .float 8) := by
  obtain ⟨scalar', t', hscalar', -, hliteral⟩ := constant_ofLine_eq_ok.mp hread
  obtain rfl : scalar = scalar' := Option.some.inj (htype.symm.trans hscalar')
  have hholds := ScalarType.holds_of_literalOf hliteral
  refine ⟨layOut_define value type result registry, fun hback ↦ ⟨?_, ?_⟩, fun hscalar ↦ ?_⟩
  · rintro rfl
    exact not_readsBack_of_width (.inl rfl) htype hholds hback
  · rintro rfl
    exact not_readsBack_of_width (.inr rfl) htype hholds hback
  · obtain ⟨u, hu, hagain⟩ := hholds.exists_spelling fun width hfloat ↦ by
      subst hfloat
      rcases hholds.float_width with (rfl | rfl) | hstored
      · exact absurd rfl hscalar.1
      · exact absurd rfl hscalar.2
      · exact hstored
    exact readsBack_of_spells htype hu hagain

/-- A pattern of 32 bits that is not a number is written in hexadecimal, and read back. -/
theorem constant_reads_back_iff_nan :
    (ofLine [(⟨0⟩, .float 32)] 1 ⟨.newline, 1⟩).constant ⟨0⟩ [⟨.int 0x7fc00000, 1⟩] =
        .ok (⟨.one 0x7fc00000, .float⟩, []) ∧
      ReadsBack [(⟨0⟩, .float 32)] ⟨0⟩ ⟨.one 0x7fc00000, .float⟩ := by
  have hread : (ofLine [(⟨0⟩, .float 32)] 1 ⟨.newline, 1⟩).constant ⟨0⟩ [⟨.int 0x7fc00000, 1⟩] =
      .ok (⟨.one 0x7fc00000, .float⟩, []) := rfl
  exact ⟨hread, (constant_reads_back_iff rfl hread ⟨1⟩ .empty).2.mpr ⟨by decide, by decide⟩⟩

/-- The bits of an 8-bit floating-point constant are read as an integer, but not as what is written
for them. -/
theorem not_readsBack_eight_bits :
    (ofLine [(⟨0⟩, .float 8)] 1 ⟨.newline, 1⟩).constant ⟨0⟩ [⟨.int 1, 1⟩] =
        .ok (⟨.one 1, .float⟩, []) ∧
      ¬ ReadsBack [(⟨0⟩, .float 8)] ⟨0⟩ ⟨.one 1, .float⟩ :=
  ⟨rfl, not_readsBack_of_width (.inr rfl) rfl ⟨⟨1, rfl⟩, rfl⟩⟩

end Supply

end SpirvText
