import Mathlib.Data.List.Forall2
import SpirvText.Instruction.Reader
import SpirvText.Proofs.Layout.Agreement

/-!
# Reading on other lines

The lines that tokens are on matter for errors alone.  An instruction is read alike from the same
tokens on other lines, and an error is on the line of one of them, so that it moves as they do
(`Instruction.endAlike_read`).  Errors that the layout finds have no line at first; they move with
the mnemonic, whose line they get (`ReadError.moved_orAt`).
-/

namespace SpirvText

variable {L : Nat → Nat → Prop}

/-- The same token, on related lines. -/
inductive Located.Moved (L : Nat → Nat → Prop) : Located → Located → Prop
  | intro (token : Token) {line line' : Nat} : L line line' → Moved L ⟨token, line⟩ ⟨token, line'⟩

theorem Located.Moved.line {t t' : Located} (h : Moved L t t') : L t.line t'.line := by
  obtain ⟨token, hline⟩ := h
  exact hline

/-- The same error, on related lines. -/
inductive ReadError.Moved (L : Nat → Nat → Prop) : ReadError → ReadError → Prop
  | intro (cause : ReadCause) {line line' : Nat} :
    L line line' → Moved L ⟨line, cause⟩ ⟨line', cause⟩

/-- Related lines, or the line of errors that have none yet. -/
def OrUnplaced (L : Nat → Nat → Prop) (line line' : Nat) : Prop :=
  L line line' ∨ line = 0 ∧ line' = 0

/-- Tokens on related lines stay so if errors may have no line yet. -/
theorem Located.Moved.orUnplaced {t t' : Located} (h : Moved L t t') :
    Moved (OrUnplaced L) t t' := by
  obtain ⟨token, hline⟩ := h
  exact ⟨token, .inl hline⟩

/-- Once errors are placed, on the lines where they are or on two others, they are on related
lines. -/
theorem ReadError.moved_orAt {line line' : Nat} (hline : L line line')
    (hplaced : ∀ {l l' : Nat}, L l l' → L (if l = 0 then line else l) (if l' = 0 then line' else l'))
    {e e' : ReadError} (h : Moved (OrUnplaced L) e e') : Moved L (e.orAt line) (e'.orAt line') := by
  obtain ⟨cause, h | ⟨rfl, rfl⟩⟩ := h
  · exact ⟨cause, hplaced h⟩
  · exact ⟨cause, hline⟩

namespace Supply

open Located

variable {t t' : Located}

/-- An unexpected token is an error on its own line. -/
theorem moved_unexpected (expected : Expectation) (h : Moved L t t') :
    ReadError.Moved L (unexpected expected t) (unexpected expected t') := by
  obtain ⟨token, hline⟩ := h
  exact ⟨_, hline⟩

theorem moved_invalid (h : Moved L t t') : ReadError.Moved L (invalid t) (invalid t') := by
  obtain ⟨token, hline⟩ := h
  exact ⟨_, hline⟩

theorem endAlike_regOf (number : UInt32) (h : Moved L t t') :
    EndAlike (ReadError.Moved L) Eq (regOf number t) (regOf number t') := by
  unfold regOf
  split
  · exact .ok rfl
  · exact .error (moved_invalid h)

theorem endAlike_wordOf (v : Int) (h : Moved L t t') :
    EndAlike (ReadError.Moved L) Eq (wordOf v t) (wordOf v t') := by
  unfold wordOf
  split
  · exact .ok rfl
  · exact .error (moved_invalid h)

/-- An error of a literal is reported on the line where the literal is. -/
theorem endAlike_mapError {α : Type} (x : Except OperandError α) {line line' : Nat}
    (h : L line line') :
    EndAlike (ReadError.Moved L) Eq (x.mapError fun e ↦ (⟨line, .operands e⟩ : ReadError))
      (x.mapError fun e ↦ ⟨line', .operands e⟩) := by
  cases x with
  | error e => exact .error ⟨_, h⟩
  | ok a => exact .ok rfl

/-- Whether a token stands for a literal has nothing to do with its line. -/
theorem endAlike_literalOf (type : ScalarType) (h : Moved L t t') :
    EndAlike (ReadError.Moved L) Eq (literalOf type t) (literalOf type t') := by
  have hinvalid := moved_invalid h
  obtain ⟨token, hline⟩ := h
  unfold literalOf
  cases type with
  | integer width =>
    cases token with
    | int v =>
      dsimp only
      split
      · exact endAlike_mapError _ hline
      · exact .error hinvalid
    | _ => exact .error hinvalid
  | float width =>
    cases token with
    | int v =>
      dsimp only
      split
      · exact endAlike_mapError _ hline
      · exact .error hinvalid
    | float v => exact endAlike_mapError _ hline
    | _ => exact .error hinvalid

/-- Lines of the same tokens supply the same operands. -/
theorem agree_ofLine (types : List (Reg × ScalarType)) {line line' : Nat} {stop stop' : Located}
    (hline : L line line') (hstop : Moved L stop stop') :
    (ofLine types line stop).Agree (ofLine types line' stop') (Moved L) (ReadError.Moved L) where
  isImmediate t t' h := by
    cases h
    rfl
  reg t t' h := by
    have herror := moved_unexpected .register h
    obtain ⟨token, ht⟩ := h
    cases token with
    | id number => exact endAlike_regOf number ⟨_, ht⟩
    | _ => exact .error herror
  literal t t' h := by
    have herror := moved_unexpected .integer h
    obtain ⟨token, ht⟩ := h
    cases token with
    | int v => exact endAlike_wordOf v ⟨_, ht⟩
    | _ => exact .error herror
  symbol category t t' h := by
    obtain ⟨token, ht⟩ := h
    simp only [ofLine]
    split
    · split
      · exact .ok rfl
      · exact .error ⟨_, ht⟩
    · split
      · exact .ok rfl
      · exact .error ⟨_, ht⟩
    · exact .error ⟨_, ht⟩
  extNumber set t t' h := by
    obtain ⟨token, ht⟩ := h
    simp only [ofLine]
    split
    · exact .ok rfl
    · exact .error ⟨_, ht⟩
  plain t t' h := by
    have herror := moved_unexpected .plainOperand h
    obtain ⟨token, ht⟩ := h
    cases token with
    | id number => exact (endAlike_regOf number ⟨_, ht⟩).map fun _ _ ↦ congrArg Operand.reg
    | int v => exact (endAlike_wordOf v ⟨_, ht⟩).map fun _ _ ↦ congrArg Operand.imm
    | ident text => exact .ok rfl
    | _ => exact .error herror
  skip t t' h := .error (moved_unexpected .interfaceRegister h)
  text t t' rest rest' h hrest := by
    have herror := moved_unexpected .string h
    obtain ⟨token, ht⟩ := h
    cases token with
    | str text =>
      simp only [ofLine]
      split
      · exact .error ⟨_, ht⟩
      · exact .ok ⟨rfl, hrest⟩
    | _ => exact .error herror
  constant type items items' h := by
    simp only [ofLine]
    cases types.lookup type with
    | none =>
      cases h with
      | nil => exact .error ⟨_, hstop.line⟩
      | cons ht _ => exact .error ⟨_, ht.line⟩
    | some scalar =>
      cases h with
      | nil => exact .error (moved_unexpected .constant hstop)
      | cons ht h =>
        refine (endAlike_literalOf scalar ht).bind ?_
        rintro value _ rfl
        exact .ok ⟨rfl, h⟩
  error e := ⟨_, hline⟩

end Supply

/-- Whether a token names an opcode has nothing to do with its line. -/
theorem endAlike_opcodeOf {first first' : Located} (h : Located.Moved L first first') :
    EndAlike (ReadError.Moved L) Eq (opcodeOf first) (opcodeOf first') := by
  have herror := Supply.moved_unexpected .mnemonic h
  obtain ⟨token, hline⟩ := h
  cases token with
  | ident text =>
    simp only [opcodeOf]
    split
    · exact .ok rfl
    · exact .error ⟨_, hline⟩
  | _ => exact .error herror

/-- An instruction is read alike from lines of the same tokens. -/
theorem Instruction.endAlike_read (context : ReadContext) {first first' stop stop' : Located}
    {rest rest' : List Located} (hfirst : Located.Moved L first first')
    (hrest : List.Forall₂ (Located.Moved L) rest rest') (hstop : Located.Moved L stop stop')
    (hplaced : ∀ {l l' : Nat}, L l l' →
      L (if l = 0 then first.line else l) (if l' = 0 then first'.line else l')) :
    EndAlike (ReadError.Moved L) Eq (read context first rest stop).result
      (read context first' rest' stop').result := by
  have hmoved (e e' : ReadError) (h : ReadError.Moved (OrUnplaced L) e e') :
      ReadError.Moved L (e.orAt first.line) (e'.orAt first'.line) :=
    ReadError.moved_orAt hfirst.line hplaced h
  simp only [read, Transcript.result_bind, Transcript.result_putAll]
  refine (endAlike_opcodeOf hfirst).bind ?_
  rintro opcode _ rfl
  obtain ⟨hentries, hresult⟩ := Supply.agree_layOut
    (Supply.agree_ofLine context.types (.inr ⟨rfl, rfl⟩) hstop.orUnplaced) opcode context.registry
    (hrest.imp fun _ _ ↦ Located.Moved.orUnplaced)
  refine (EndAlike.ok (A := Eq) rfl).bind fun _ _ _ ↦ ?_
  refine EndAlike.bind (hresult.mapError hmoved) fun left left' hleft ↦ ?_
  cases hleft with
  | nil =>
    rw [hentries]
    exact .ok rfl
  | cons ht hleft => exact .error (hmoved _ _ (Supply.moved_unexpected .lineEnd ht))

end SpirvText
