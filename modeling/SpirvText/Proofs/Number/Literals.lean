import SpirvText.Instruction.Reader
import SpirvText.Proofs.Number.Shortest

/-!
# Numeric literals read back

A constant of a numeric type is written as a word that is read as the same literal
(`ScalarType.Holds.exists_spelling`).  For floating-point types this takes one of the widths that
such numbers have, for the bits of any other width are written as if they had 32.
-/

namespace SpirvText

open Lexer

/-! ## Words and bits -/

namespace LiteralWords

/-- A mask keeps the low bits. -/
theorem toNat_and_mask (bits : UInt64) {mask : UInt64} {k : Nat} (hk : k ≤ 32)
    (hmask : mask.toNat = 2 ^ k - 1) : (bits &&& mask).toUInt32.toNat = bits.toNat % 2 ^ k := by
  rw [UInt64.toNat_toUInt32, UInt64.toNat_and, hmask, Nat.and_two_pow_sub_one_eq_mod]
  exact Nat.mod_eq_of_lt (Nat.lt_of_lt_of_le (Nat.mod_lt _ (Nat.two_pow_pos k))
    (Nat.pow_le_pow_right (by decide) hk))

/-- The words of a literal: one, which has no more bits than the width, or two. -/
theorem of_ofBits {bits : UInt64} {width : UInt32} {words : LiteralWords}
    (h : ofBits bits width = .ok words) :
    (∃ word, words = .one word ∧ word.toNat < 2 ^ width.toNat ∧
      (width = 1 ∨ width = 8 ∨ width = 16 ∨ width = 32)) ∨
    width = 64 ∧ ∃ low high, words = .two low high := by
  have hmask : ∀ k : Nat, k ≤ 32 → ∀ mask : UInt64, mask.toNat = 2 ^ k - 1 →
      (bits &&& mask).toUInt32.toNat < 2 ^ k := by
    intro k hk mask hmask
    rw [toNat_and_mask bits hk hmask]
    exact Nat.mod_lt _ (Nat.two_pow_pos k)
  unfold ofBits at h
  split at h
  · next hw =>
    obtain rfl := eq_of_beq hw
    cases h
    exact .inl ⟨_, rfl, hmask 1 (by decide) 1 rfl, .inl rfl⟩
  split at h
  · next hw =>
    obtain rfl := eq_of_beq hw
    cases h
    exact .inl ⟨_, rfl, hmask 8 (by decide) 0xff rfl, .inr (.inl rfl)⟩
  split at h
  · next hw =>
    obtain rfl := eq_of_beq hw
    cases h
    exact .inl ⟨_, rfl, hmask 16 (by decide) 0xffff rfl, .inr (.inr (.inl rfl))⟩
  split at h
  · next hw =>
    obtain rfl := eq_of_beq hw
    cases h
    exact .inl ⟨_, rfl, UInt32.toNat_lt _, .inr (.inr (.inr rfl))⟩
  split at h
  · next hw =>
    cases h
    exact .inr ⟨eq_of_beq hw, _, _, rfl⟩
  · cases h

/-- The bits of a word that has no more of them than the width are that word. -/
theorem ofBits_one {bits : UInt64} {width word : UInt32}
    (hwidth : width = 1 ∨ width = 8 ∨ width = 16 ∨ width = 32)
    (h : bits.toNat % 2 ^ width.toNat = word.toNat) : ofBits bits width = .ok (.one word) := by
  have hmask : ∀ k : Nat, k ≤ 32 → ∀ mask : UInt64, mask.toNat = 2 ^ k - 1 →
      bits.toNat % 2 ^ k = word.toNat → (bits &&& mask).toUInt32 = word := by
    intro k hk mask hmask hbits
    rw [← UInt32.toNat_inj, toNat_and_mask bits hk hmask, hbits]
  rcases hwidth with rfl | rfl | rfl | rfl
  · simp [ofBits, hmask 1 (by decide) 1 rfl h]
  · simp [ofBits, hmask 8 (by decide) 0xff rfl h]
  · simp [ofBits, hmask 16 (by decide) 0xffff rfl h]
  · have hword : bits.toUInt32 = word := by
      rw [← UInt32.toNat_inj, UInt64.toNat_toUInt32]
      exact h
    simp [ofBits, hword]

/-- The bits of two words are those two words. -/
theorem ofBits_two {bits : UInt64} {low high : UInt32}
    (h : bits.toNat = (two low high).toNat) : ofBits bits 64 = .ok (.two low high) := by
  have hlow : bits.toUInt32 = low := by
    rw [← UInt32.toNat_inj, UInt64.toNat_toUInt32, h, toNat]
    have := low.toNat_lt
    omega
  have hhigh : (bits >>> 32).toUInt32 = high := by
    rw [← UInt32.toNat_inj, UInt64.toNat_toUInt32, UInt64.toNat_shiftRight, h, toNat]
    have := low.toNat_lt
    have := high.toNat_lt
    simp [Nat.shiftRight_eq_div_pow]
    omega
  simp [ofBits, hlow, hhigh]

theorem toNat_two_lt (low high : UInt32) : (two low high).toNat < 2 ^ 64 := by
  have := low.toNat_lt
  have := high.toNat_lt
  rw [toNat]
  omega

end LiteralWords

theorem wordOfInt_signedWord (w : UInt32) : wordOfInt (signedWord w) = w := by
  have hlt := w.toNat_lt
  have hmod : (signedWord w % 2 ^ 32).toNat = w.toNat := by
    rw [signedWord]
    split <;> omega
  rw [wordOfInt, hmod, UInt32.ofNat_toNat]

theorem signedWord_bounds (w : UInt32) : -2 ^ 31 ≤ signedWord w ∧ signedWord w < 2 ^ 31 := by
  have hlt := w.toNat_lt
  rw [signedWord]
  split <;> omega

/-- A word is spelt as the number it is written as. -/
theorem spells_signedWord (w : UInt32) :
    Spells (toString (signedWord w)).toList (.int (signedWord w)) := by
  have hbounds := signedWord_bounds w
  refine spells_integer ?_
  simp [Lexer.integerFits]
  omega

/-! ## Literals of a type -/

/-- The literals that constants of a type have. -/
def ScalarType.Holds : ScalarType → Literal → Prop
  | .integer width, l =>
    (∃ bits, LiteralWords.ofBits bits width = .ok l.words) ∧ l.form = Literal.integerForm width
  | .float width, l =>
    (∃ bits, LiteralWords.ofBits bits width = .ok l.words) ∧ l.form = Literal.floatForm width

theorem mapError_eq_ok {ε ε' α : Type} {f : ε → ε'} {x : Except ε α} {a : α} :
    x.mapError f = .ok a ↔ x = .ok a := by
  cases x <;> simp [Except.mapError]

/-- The literal of a number is one that a constant of its type has. -/
theorem Literal.holds_of_ofFloat {value : Binary64} {width : UInt32} {l : Literal}
    (h : Literal.ofFloat value width = .ok l) : (ScalarType.float width).Holds l := by
  unfold Literal.ofFloat at h
  split at h
  · next hw =>
    obtain ⟨words, hwords, hl⟩ := bind_eq_ok.mp h
    obtain rfl := eq_of_beq hw
    cases hl
    exact ⟨⟨_, hwords⟩, rfl⟩
  split at h
  · next hw =>
    obtain ⟨words, hwords, hl⟩ := bind_eq_ok.mp h
    obtain rfl := eq_of_beq hw
    cases hl
    exact ⟨⟨_, hwords⟩, rfl⟩
  split at h
  · next hw =>
    obtain ⟨words, hwords, hl⟩ := bind_eq_ok.mp h
    obtain rfl := eq_of_beq hw
    cases hl
    exact ⟨⟨_, hwords⟩, rfl⟩
  · cases h

/-- Numbers are stored in 16, 32 or 64 bits. -/
theorem Literal.width_of_ofFloat {value : Binary64} {width : UInt32} {l : Literal}
    (h : Literal.ofFloat value width = .ok l) : width = 16 ∨ width = 32 ∨ width = 64 := by
  unfold Literal.ofFloat at h
  split at h
  · next hw => exact .inl (eq_of_beq hw)
  split at h
  · next hw => exact .inr (.inl (eq_of_beq hw))
  split at h
  · next hw => exact .inr (.inr (eq_of_beq hw))
  · cases h

namespace ScalarType

/-- A literal that is read for a type is one that a constant of the type has. -/
theorem holds_of_literalOf {type : ScalarType} {t : Located} {l : Literal}
    (h : Supply.literalOf type t = .ok l) : type.Holds l := by
  unfold Supply.literalOf at h
  dsimp only at h
  split at h
  · split at h
    · obtain ⟨words, hwords, hl⟩ := bind_eq_ok.mp (mapError_eq_ok.mp h)
      cases hl
      exact ⟨⟨_, hwords⟩, rfl⟩
    · cases h
  · exact Literal.holds_of_ofFloat (mapError_eq_ok.mp h)
  · split at h
    · obtain ⟨words, hwords, hl⟩ := bind_eq_ok.mp (mapError_eq_ok.mp h)
      cases hl
      exact ⟨⟨_, hwords⟩, rfl⟩
    · cases h
  · cases h

/-! ## Integers -/

theorem literalOf_integer {width : UInt32} {v : Int} {words : LiteralWords}
    (hfits : integerFits width v = true)
    (hwords : LiteralWords.ofBits (.ofNat (v % 2 ^ 64).toNat) width = .ok words) (line : Nat) :
    Supply.literalOf (.integer width) ⟨.int v, line⟩ = .ok ⟨words, Literal.integerForm width⟩ := by
  simp only [Supply.literalOf, hfits, if_true, Literal.ofInteger, hwords]
  rfl

section SignedWord

variable {width word : UInt32} (hwidth : width = 1 ∨ width = 8 ∨ width = 16 ∨ width = 32)
  (h16 : width ≠ 16) (hlt : word.toNat < 2 ^ width.toNat)
include hwidth h16 hlt

theorem integerFits_signedWord : integerFits width (signedWord word) = true := by
  have hfits := signedWord_bounds word
  rcases hwidth with rfl | rfl | rfl | rfl
  · have hlt : word.toNat < 2 ^ 1 := hlt
    simp [integerFits, signedWord]
    omega
  · have hlt : word.toNat < 2 ^ 8 := hlt
    simp [integerFits, signedWord]
    omega
  · exact absurd rfl h16
  · simp [integerFits]
    omega

/-- The bits of the number that a word is written as are those of the word. -/
theorem toNat_mod_signedWord :
    (UInt64.ofNat (signedWord word % 2 ^ 64).toNat).toNat % 2 ^ width.toNat = word.toNat := by
  rw [UInt64.toNat_ofNat', signedWord]
  rcases hwidth with rfl | rfl | rfl | rfl
  · have hlt : word.toNat < 2 ^ 1 := hlt
    show _ % 2 ^ 1 = _
    omega
  · have hlt : word.toNat < 2 ^ 8 := hlt
    show _ % 2 ^ 8 = _
    omega
  · exact absurd rfl h16
  · have hlt := word.toNat_lt
    show _ % 2 ^ 32 = _
    omega

end SignedWord

/-- Every literal of an integer type is read back from its text. -/
theorem exists_spelling_integer {width : UInt32} {l : Literal} (h : (integer width).Holds l) :
    ∃ t, Spells l.text.toList t ∧ ∀ line, Supply.literalOf (.integer width) ⟨t, line⟩ = .ok l := by
  obtain ⟨words, form⟩ := l
  obtain ⟨⟨bits, hbits⟩, hform⟩ := h
  dsimp only at hbits hform
  subst hform
  rcases LiteralWords.of_ofBits hbits with ⟨word, rfl, hlt, hwidth⟩ | ⟨rfl, low, high, rfl⟩
  · by_cases h16 : width = 16
    · subst h16
      have hlt : word.toNat < 2 ^ 16 := hlt
      refine ⟨.int word.toNat, spells_natural (by omega),
        literalOf_integer ?_ (LiteralWords.ofBits_one hwidth ?_)⟩
      · simp [integerFits]
        omega
      · show (UInt64.ofNat _).toNat % 2 ^ 16 = _
        rw [UInt64.toNat_ofNat']
        omega
    · have hform : Literal.integerForm width = .integer := by simp [Literal.integerForm, h16]
      refine ⟨.int (signedWord word), ?_, literalOf_integer (integerFits_signedWord hwidth h16 hlt)
        (LiteralWords.ofBits_one hwidth (toNat_mod_signedWord hwidth h16 hlt))⟩
      rw [hform]
      exact spells_signedWord word
  · have hlt := LiteralWords.toNat_two_lt low high
    refine ⟨.int (LiteralWords.two low high).toNat, spells_natural (by omega),
      literalOf_integer ?_ (LiteralWords.ofBits_two ?_)⟩
    · simp [integerFits]
      omega
    · rw [UInt64.toNat_ofNat']
      omega

/-! ## Floating-point numbers -/

/-- The bits of a floating-point number can be written as an integer. -/
theorem literalOf_pattern {width : UInt32} {n : Nat} {words : LiteralWords} (hn : n < 2 ^ 64)
    (hwidth : n < 2 ^ width.toNat)
    (hwords : LiteralWords.ofBits (.ofNat n) width = .ok words) (line : Nat) :
    Supply.literalOf (.float width) ⟨.int n, line⟩ = .ok ⟨words, Literal.floatForm width⟩ := by
  have hfits : patternFits width n = true := by
    have hn : (n : Int) < 2 ^ 64 := by exact_mod_cast hn
    have hwidth : (n : Int) < 2 ^ width.toNat := by exact_mod_cast hwidth
    simp only [patternFits, hn, hwidth, Int.natCast_nonneg, decide_true, Bool.or_true,
      Bool.and_true]
  simp only [Supply.literalOf, hfits, if_true, Int.toNat_natCast, hwords]
  rfl

/-- The text of a finite number is read as that number, any other as the bits. -/
theorem exists_spelling_floatText {width : UInt32} {value : Binary64} {bits : Nat} {l : Literal}
    (hbits : bits < 2 ^ 127)
    (hfloat : value.isFinite = true →
      ∀ line, Supply.literalOf (.float width) ⟨.float value, line⟩ = .ok l)
    (hint : ∀ line, Supply.literalOf (.float width) ⟨.int bits, line⟩ = .ok l) :
    ∃ t, Spells (Literal.floatText value bits).toList t ∧
      ∀ line, Supply.literalOf (.float width) ⟨t, line⟩ = .ok l := by
  rw [Literal.floatText]
  split
  · next hfinite => exact ⟨.float value, Binary64.spells_text hfinite, hfloat hfinite⟩
  · exact ⟨.int bits, spells_hex hbits, hint⟩

/-- Every literal of a floating-point type is read back from its text, if the width is one of those
that numbers are stored in. -/
theorem exists_spelling_float {width : UInt32} {l : Literal}
    (hwidth : width = 16 ∨ width = 32 ∨ width = 64) (h : (float width).Holds l) :
    ∃ t, Spells l.text.toList t ∧ ∀ line, Supply.literalOf (.float width) ⟨t, line⟩ = .ok l := by
  obtain ⟨words, form⟩ := l
  obtain ⟨⟨bits, hbits⟩, hform⟩ := h
  dsimp only at hbits hform
  subst hform
  rcases LiteralWords.of_ofBits hbits with ⟨word, rfl, hlt, hone⟩ | ⟨rfl, low, high, rfl⟩
  · have hword := word.toNat_lt
    have hpattern : LiteralWords.ofBits (.ofNat word.toNat) width = .ok (.one word) := by
      refine LiteralWords.ofBits_one hone ?_
      rw [UInt64.toNat_ofNat', Nat.mod_eq_of_lt (Nat.lt_of_lt_of_le hword (by decide)),
        Nat.mod_eq_of_lt hlt]
    have hint := literalOf_pattern (Nat.lt_of_lt_of_le hword (by decide)) hlt hpattern
    rcases hwidth with rfl | rfl | rfl
    · exact ⟨.int word.toNat, spells_natural (by omega), hint⟩
    · refine exists_spelling_floatText (by omega) (fun hfinite line ↦ ?_) hint
      have hback := Binary32.toBinary32_toBinary64 (Binary32.isFinite_of_toBinary64 hfinite)
      have hwords : LiteralWords.ofBits word.toUInt64 32 = .ok (.one word) :=
        LiteralWords.ofBits_one hone (by simp)
      simp only [Supply.literalOf, Literal.ofFloat, hback, hwords]
      rfl
    · simp at hone
  · have hlt := LiteralWords.toNat_two_lt low high
    have hbits : (UInt64.ofNat (LiteralWords.two low high).toNat).toNat =
        (LiteralWords.two low high).toNat := by
      rw [UInt64.toNat_ofNat', Nat.mod_eq_of_lt hlt]
    have hwords := LiteralWords.ofBits_two hbits
    refine exists_spelling_floatText (by omega) (fun _ line ↦ ?_) (literalOf_pattern hlt hlt hwords)
    simp only [Supply.literalOf, Literal.ofFloat, hwords]
    rfl

/-- A pattern of too few bits for a number is written as the number of 32 bits that has it. -/
theorem exists_spells_float {width : UInt32} {l : Literal} (hwidth : width = 1 ∨ width = 8)
    (h : (float width).Holds l) : ∃ value, Spells l.text.toList (.float value) := by
  obtain ⟨words, form⟩ := l
  obtain ⟨⟨bits, hbits⟩, hform⟩ := h
  dsimp only at hbits hform
  obtain ⟨word, rfl, hlt⟩ : ∃ word, words = .one word ∧ word.toNat < 2 ^ 8 := by
    rcases LiteralWords.of_ofBits hbits with ⟨word, rfl, hlt, -⟩ | ⟨rfl, -⟩
    · refine ⟨word, rfl, Nat.lt_of_lt_of_le hlt (Nat.pow_le_pow_right (by decide) ?_)⟩
      rcases hwidth with rfl | rfl <;> decide
    · rcases hwidth with h | h <;> cases h
  obtain rfl : form = .float := by
    rw [hform]
    rcases hwidth with rfl | rfl <;> rfl
  have hfinite : (Binary32.mk word).isFinite = true := by
    have hsmall : word.toNat < Format.single.infinity := Nat.lt_trans hlt (by decide)
    rw [Binary32.isFinite, decide_eq_true_eq]
    exact Nat.lt_of_le_of_lt (Nat.mod_le _ _) hsmall
  have hwide := Binary32.isFinite_toBinary64 hfinite
  refine ⟨Binary32.toBinary64 ⟨word⟩, ?_⟩
  rw [Literal.text, Literal.floatText, if_pos hwide]
  exact Binary64.spells_text hwide

/-- A literal of a type is written as a word that is read as the same literal. -/
theorem Holds.exists_spelling {type : ScalarType} {l : Literal} (h : type.Holds l)
    (hwidth : ∀ width, type = .float width → width = 16 ∨ width = 32 ∨ width = 64) :
    ∃ t, Spells l.text.toList t ∧ ∀ line, Supply.literalOf type ⟨t, line⟩ = .ok l := by
  cases type with
  | integer width => exact exists_spelling_integer h
  | float width => exact exists_spelling_float (hwidth width rfl) h

/-- The widths that a floating-point constant can have. -/
theorem Holds.float_width {width : UInt32} {l : Literal} (h : (float width).Holds l) :
    (width = 1 ∨ width = 8) ∨ width = 16 ∨ width = 32 ∨ width = 64 := by
  obtain ⟨⟨bits, hbits⟩, -⟩ := h
  rcases LiteralWords.of_ofBits hbits with ⟨-, -, -, rfl | rfl | hone⟩ | ⟨rfl, -⟩
  · exact .inl (.inl rfl)
  · exact .inl (.inr rfl)
  · exact .inr (hone.imp_right .inl)
  · exact .inr (.inr (.inr rfl))

/-- A literal is written as some token, if not always as one that it is read from. -/
theorem Holds.exists_spells {type : ScalarType} {l : Literal} (h : type.Holds l) :
    ∃ t, Spells l.text.toList t := by
  cases type with
  | integer width =>
    obtain ⟨t, ht, -⟩ := exists_spelling_integer h
    exact ⟨t, ht⟩
  | float width =>
    rcases h.float_width with hnarrow | hstored
    · obtain ⟨value, hvalue⟩ := exists_spells_float hnarrow h
      exact ⟨.float value, hvalue⟩
    · obtain ⟨t, ht, -⟩ := exists_spelling_float hstored h
      exact ⟨t, ht⟩

end ScalarType

end SpirvText
