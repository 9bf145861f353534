import SpirvText.Proofs.Instruction.Integers
import SpirvText.Proofs.Module.Origin

/-!
# Constants that are built

A constant that is built for a type, from bits or from a floating-point number, is written as a
line that is read as the same constant wherever the type has been declared.
-/

namespace SpirvText

open Lexer

/-! ## Declarations -/

/-- Declares a register as a numeric type.  Integer types have a signedness as well, which their
constants do not depend on. -/
def ScalarType.declaration (type : Reg) (signedness : UInt32) : ScalarType → Instruction
  | .integer width => ⟨.opTypeInt, [.reg type, .imm width, .imm signedness], .integer⟩
  | .float width => ⟨.opTypeFloat, [.reg type, .imm width], .integer⟩

namespace Supply

variable {ι ε : Type} {s : Supply ι ε} (registry : Registry)

/-- Literal words are taken one after the other. -/
theorem fixedOperands_literals {item : UInt32 → ι}
    (hitem : ∀ word, s.literal (item word) = .ok word)
    (opcode : Opcode) (words : List UInt32) (index : Nat) (values : FixedValues) :
    ∃ values', s.fixedOperands registry opcode (words.map fun _ ↦ .literal) index values
      (words.map item) = ⟨words.map .literal, .ok (values', [])⟩ := by
  induction words generalizing index values with
  | nil => exact ⟨values, rfl⟩
  | cons word words ih =>
    obtain ⟨values', hwords⟩ := ih (index + 1) { values with selector := some word }
    refine ⟨values', ?_⟩
    rw [List.map_cons, List.map_cons, List.map_cons, fixedOperands_cons_eq_ok]
    exact ⟨_, _, _, _, _, rfl, rfl, .literal (hitem word), hwords⟩

/-- An opcode that takes a register and literal words is laid out from them. -/
theorem layOut_of_literals {opcode : Opcode} {words : List UInt32} {x : ι} {item : UInt32 → ι}
    {type : Reg} (hshape : opcode.shape = ⟨.id :: words.map fun _ ↦ .literal, .empty⟩)
    (hx : s.reg x = .ok type) (hitem : ∀ word, s.literal (item word) = .ok word) :
    s.layOut registry opcode (x :: words.map item) =
      ⟨.reg type :: words.map .literal, .ok []⟩ := by
  obtain ⟨values, hwords⟩ :=
    s.fixedOperands_literals registry hitem opcode words 1 { regs := [type] }
  have hfixed : s.fixedOperands registry opcode opcode.shape.fixed 0 {} (x :: words.map item) =
      ⟨.reg type :: words.map .literal, .ok (values, [])⟩ := by
    rw [hshape, fixedOperands_cons_eq_ok]
    exact ⟨_, _, _, _, _, rfl, rfl, .id hx, hwords⟩
  have htail : s.tail opcode values [] opcode.shape.tail = ⟨[], .ok []⟩ := by
    rw [hshape]
    rfl
  exact Transcript.bind_eq_ok.mpr ⟨_, _, _, hfixed, htail, (List.append_nil _).symm⟩

theorem literal_ofLine (types : List (Reg × ScalarType)) (line l : Nat) (stop : Located)
    (word : UInt32) : (ofLine types line stop).literal ⟨.int (signedWord word), l⟩ = .ok word :=
  wordOf_signedWord word _

end Supply

theorem ScalarType.wellFormed_of_literalOf {scalar : ScalarType} {t : Located} {value : Literal}
    (h : Supply.literalOf scalar t = .ok value) : WellFormed t.token := by
  obtain ⟨t, line⟩ := t
  cases t with
  | int _ | float _ => rfl
  | _ => cases scalar <;> cases h

namespace Instruction

variable {context : ReadContext} {type result : Reg} {scalar : ScalarType} {value : Literal}

/-- What is not a constant is legible if it is laid out from some line. -/
theorem legible_of_layOut {opcode : Opcode} {rest : List Located} {fields : List Field}
    (hlaid : (Supply.ofLine context.types 0 ⟨.eof, 1⟩).layOut context.registry opcode rest =
      ⟨fields, .ok []⟩) (hrest : ∀ t ∈ rest, WellFormed t.token) (hopcode : opcode ≠ .opConstant) :
    (ofFields opcode fields).Legible context := by
  have hread : (read context ⟨.ident opcode.mnemonic, 1⟩ rest ⟨.eof, 1⟩).result =
      .ok (ofFields opcode fields, _) :=
    read_eq_ok.mpr ⟨opcode, fields, opcodeOf_eq_ok rfl, hlaid, rfl, rfl⟩
  have hnone : context.floatWidth? (ofFields opcode fields) = none := if_neg hopcode
  refine (legible_of_read hread hrest fun width hwidth ↦ ?_).1
  rw [hnone] at hwidth
  cases hwidth

theorem ofFields_literals (opcode : Opcode) (type : Reg) (words : List UInt32) :
    ofFields opcode (.reg type :: words.map .literal) =
      ⟨opcode, .reg type :: words.map .imm, .integer⟩ := by
  have hform : (words.map Field.literal).findSome? Field.form? = none := by
    rw [List.findSome?_map, List.findSome?_eq_none_iff]
    exact fun _ _ ↦ rfl
  have hoperands : (words.map Field.literal).flatMap Field.operands = words.map .imm := by
    rw [List.flatMap_map]
    exact List.flatMap_pure_eq_map _ _
  rw [ofFields, List.flatMap_cons, hoperands, List.findSome?_cons_of_isNone rfl, hform]
  rfl

/-- A register and literal words are read from their line in any context. -/
theorem legible_of_literals (context : ReadContext) (htype : type.number < 2 ^ 32) (opcode : Opcode)
    (words : List UInt32) (hshape : opcode.shape = ⟨.id :: words.map fun _ ↦ .literal, .empty⟩)
    (hopcode : opcode ≠ .opConstant) :
    (Instruction.mk opcode (.reg type :: words.map .imm) .integer).Legible context := by
  have hreg : (Supply.ofLine context.types 0 ⟨.eof, 1⟩).reg ⟨.id (type.index + 1), 1⟩ = .ok type :=
    Supply.reg_ofLine rfl (Reg.ofNumber?_number htype) _ _ _
  have hlaid := Supply.layOut_of_literals context.registry hshape hreg
    (Supply.literal_ofLine context.types 0 1 ⟨.eof, 1⟩)
  rw [← ofFields_literals]
  refine legible_of_layOut hlaid ?_ hopcode
  rw [List.forall_mem_cons, List.forall_mem_map]
  exact ⟨rfl, fun _ _ ↦ rfl⟩

/-- A declaration of a type is written and read back wherever it stands. -/
theorem legible_declaration (context : ReadContext) (htype : type.number < 2 ^ 32)
    (signedness : UInt32) (scalar : ScalarType) :
    (scalar.declaration type signedness).Legible context := by
  cases scalar with
  | integer width =>
    exact legible_of_literals context htype .opTypeInt [width, signedness] rfl (by decide)
  | float width => exact legible_of_literals context htype .opTypeFloat [width] rfl (by decide)

/-- A constant is read from its line where its type has been declared. -/
theorem legible_define (htype : type.number < 2 ^ 32) (hresult : result.number < 2 ^ 32)
    (hscalar : context.types.lookup type = some scalar) (hholds : scalar.Holds value)
    (hwidth : ∀ width, scalar = .float width → width = 16 ∨ width = 32 ∨ width = 64) :
    (value.define type result).Legible context := by
  obtain ⟨t, -, hliteral⟩ := hholds.exists_spelling hwidth
  have hread : (read context ⟨.ident "OpConstant", 1⟩
      [⟨.id (type.index + 1), 1⟩, ⟨.id (result.index + 1), 1⟩, ⟨t, 1⟩] ⟨.eof, 1⟩).result =
        .ok (value.define type result, context) :=
    (read_opConstant_eq_ok rfl rfl rfl (Reg.ofNumber?_number htype)
      (Reg.ofNumber?_number hresult)).mpr ⟨scalar, value, hscalar, hliteral 1, rfl, rfl⟩
  refine (legible_of_read hread ?_ ?_).1
  · simp only [List.forall_mem_cons]
    exact ⟨rfl, rfl, ScalarType.wellFormed_of_literalOf (hliteral 1), List.forall_mem_nil _⟩
  · intro width hfloat
    have hopcode : (value.define type result).opcode = .opConstant := rfl
    have hreg : (value.define type result).reg? 0 = some type := rfl
    rw [ReadContext.floatWidth?, if_pos hopcode, hreg, Option.bind_some, hscalar] at hfloat
    cases scalar with
    | integer => cases hfloat
    | float => exact hwidth width (congrArg ScalarType.float (Option.some.inj hfloat))

end Instruction

/-! ## Two lines -/

theorem ScalarType.layOut_declaration (scalar : ScalarType) (type : Reg) (signedness : UInt32)
    (registry registry' : Registry) :
    (scalar.declaration type signedness).layOut registry =
      (scalar.declaration type signedness).layOut registry' := by
  cases scalar <;> rfl

/-- After its declaration a type is known for constants. -/
theorem ScalarType.lookup_declaration (scalar : ScalarType) (type : Reg) (signedness : UInt32)
    (context : ReadContext) :
    (context.after (scalar.declaration type signedness)).types.lookup type = some scalar := by
  have hdeclared : (context.declare (scalar.declaration type signedness)).types =
      (type, scalar) :: context.types := by
    cases scalar <;> rfl
  rw [ReadContext.types_after, hdeclared]
  exact List.lookup_cons_self

namespace Instruction

/-- An instruction is written without an error and read back after a line that holds another
one. -/
def ReadsBackAfter (i before : Instruction) : Prop :=
  ∀ registry name, (i.emit "" registry).error? = none ∧
    (Module.read ((before.emit "" registry).text ++ "\n" ++ (i.emit "" registry).text)
      name).result = .ok ⟨name, [before, i], []⟩

variable {type result : Reg} {scalar : ScalarType} {value : Literal}

/-- A constant that its type can hold reads back after the declaration of the type. -/
theorem readsBackAfter_define (htype : type.number < 2 ^ 32) (hresult : result.number < 2 ^ 32)
    (hholds : scalar.Holds value)
    (hwidth : ∀ width, scalar = .float width → width = 16 ∨ width = 32 ∨ width = 64)
    (signedness : UInt32) :
    (value.define type result).ReadsBackAfter (scalar.declaration type signedness) := by
  intro registry name
  have hlaid := Supply.layOut_define value type result registry
  refine ⟨by rw [emit, hlaid], ?_⟩
  obtain ⟨fields, ts, hbefore, hfields, hread⟩ := legible_declaration {} htype signedness scalar
  obtain ⟨fields', ts', hlaid', hfields', hread'⟩ := legible_define htype hresult
    (scalar.lookup_declaration type signedness {}) hholds hwidth
  rw [Supply.layOut_define] at hlaid'
  cases hlaid'
  have hlast := Module.restores_lastLine hfields' fun first rest stop hfirst hrest ↦
    ⟨_, hread' first rest stop hfirst hrest⟩
  have hadds : [scalar.declaration type signedness, value.define type result].foldlM
      Assembly.add {} =
        .ok { globals := [scalar.declaration type signedness, value.define type result] } := by
    cases scalar <;> rfl
  rw [emit, emit, String.empty_append, String.empty_append, hlaid,
    scalar.layOut_declaration type signedness registry, hbefore]
  exact (hlast.instruction hfields hread).read hadds rfl name

end Instruction

/-! ## Built constants -/

/-- All 64 bits have a literal of each width, which an integer of this width can be. -/
theorem Literal.exists_ofInteger {width : UInt32} (h : width ∈ LiteralWords.widths)
    (bits : UInt64) : ∃ value, ofInteger bits width = .ok value ∧
      (ScalarType.integer width).Holds value := by
  obtain ⟨words, hwords, -⟩ := LiteralWords.exists_ofBits h bits
  exact ⟨⟨words, integerForm width⟩, by rw [ofInteger, hwords]; rfl, ⟨bits, hwords⟩, rfl⟩

/-- Every number has a literal of each width that numbers are stored in. -/
theorem Literal.exists_ofFloat {width : UInt32} (h : width = 16 ∨ width = 32 ∨ width = 64)
    (v : Binary64) : ∃ value, ofFloat v width = .ok value := by
  rcases h with rfl | rfl | rfl <;> exact ⟨_, rfl⟩

namespace Instruction

/-- A constant that is built from bits or from a floating-point number is read back after a line
that declares its type. -/
theorem built_constants_read_back (type result : Reg) (htype : type.number < 2 ^ 32)
    (hresult : result.number < 2 ^ 32) (signedness : UInt32) :
    (∀ bits : UInt64, ∀ width ∈ LiteralWords.widths,
      ∃ value, Literal.ofInteger bits width = .ok value ∧
        (value.define type result).ReadsBackAfter
          ((ScalarType.integer width).declaration type signedness)) ∧
      ∀ v : Binary64, ∀ width, width = 16 ∨ width = 32 ∨ width = 64 →
        ∃ value, Literal.ofFloat v width = .ok value ∧
          (value.define type result).ReadsBackAfter
            ((ScalarType.float width).declaration type signedness) := by
  constructor
  · intro bits width hwidth
    obtain ⟨value, hvalue, hholds⟩ := Literal.exists_ofInteger hwidth bits
    refine ⟨value, hvalue, readsBackAfter_define htype hresult hholds ?_ signedness⟩
    intro _ h
    cases h
  · intro v width hwidth
    obtain ⟨value, hvalue⟩ := Literal.exists_ofFloat hwidth v
    have hholds := Literal.holds_of_ofFloat hvalue
    refine ⟨value, hvalue, readsBackAfter_define htype hresult hholds ?_ signedness⟩
    rintro _ ⟨⟩
    exact hwidth

theorem built_constants_read_back_limits :
    (∃ value, Literal.ofInteger 0x8000000000000000 64 = .ok value ∧
      value.words.toList = [0, 0x80000000] ∧
      ((value.define ⟨0⟩ ⟨4294967294⟩).emit "" {}).text =
        "OpConstant %1 %4294967295 9223372036854775808" ∧
      (value.define ⟨0⟩ ⟨4294967294⟩).ReadsBackAfter
        ((ScalarType.integer 64).declaration ⟨0⟩ 1)) ∧
      ∃ value, Literal.ofFloat ⟨0x7ff0000000000001⟩ 16 = .ok value ∧
        value.words.toList = [0x7e00] ∧
        ((value.define ⟨0⟩ ⟨4294967294⟩).emit "" {}).text = "OpConstant %1 %4294967295 32256" ∧
        (value.define ⟨0⟩ ⟨4294967294⟩).ReadsBackAfter
          ((ScalarType.float 16).declaration ⟨0⟩ 1) := by
  obtain ⟨hintegers, hfloats⟩ :=
    built_constants_read_back ⟨0⟩ ⟨4294967294⟩ (by decide) (by decide) 1
  constructor
  · obtain ⟨value, hvalue, hback⟩ := hintegers 0x8000000000000000 64 (by decide)
    obtain rfl := Except.ok.inj hvalue
    exact ⟨_, rfl, rfl, by decide +kernel, hback⟩
  · obtain ⟨value, hvalue, hback⟩ := hfloats ⟨0x7ff0000000000001⟩ 16 (by decide)
    obtain rfl := Except.ok.inj hvalue
    exact ⟨_, rfl, by decide +kernel, by decide +kernel, hback⟩

end Instruction

end SpirvText
