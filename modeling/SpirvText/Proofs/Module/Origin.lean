import SpirvText.Proofs.Layout.Fields
import SpirvText.Proofs.Module.RoundTrip

/-!
# Where instructions come from

Every instruction of a module that was read was read from some line (`Module.wasRead_of_read`), also
where global instructions come after functions and so are written in another order.  What was read
from a line has operands that can be written on one (`Instruction.WasRead.legible`).
-/

namespace SpirvText

open Lexer

/-- An operand that can be written as one token: a register whose number a word holds, a word, or a
symbol that is a name. -/
def Operand.Legible : Operand → Prop
  | reg r => r.number < 2 ^ 32
  | imm _ => True
  | expr symbol => IsName symbol.toList

/-- An instruction that is read from some line. -/
def Instruction.WasRead (i : Instruction) : Prop :=
  ∃ context first rest stop context', (read context first rest stop).result = .ok (i, context') ∧
    ∀ t ∈ rest, WellFormed t.token

/-! ## Operands -/

namespace Supply

variable {types : List (Reg × ScalarType)} {line : Nat} {stop : Located}

theorem legible_of_regOf {number : UInt32} {t : Located} {r : Reg} (h : regOf number t = .ok r) :
    (Operand.reg r).Legible := by
  rw [Operand.Legible, Reg.number_of_ofNumber? (regOf_eq_ok.mp h)]
  exact number.toNat_lt

theorem legible_of_reg {item : Located} {r : Reg} (h : (ofLine types line stop).reg item = .ok r) :
    (Operand.reg r).Legible := by
  obtain ⟨t, l⟩ := item
  cases t with
  | id number => exact legible_of_regOf h
  | _ => cases h

/-- An operand that is taken from a token that has a spelling can be written. -/
theorem legible_of_plain {item : Located} {operand : Operand} (hitem : WellFormed item.token)
    (h : (ofLine types line stop).plain item = .ok operand) : operand.Legible := by
  obtain ⟨t, l⟩ := item
  cases t with
  | id number =>
    obtain ⟨r, hr, rfl⟩ := map_eq_ok.mp h
    exact legible_of_regOf hr
  | int v =>
    obtain ⟨word, -, rfl⟩ := map_eq_ok.mp h
    trivial
  | ident text =>
    cases h
    exact hitem
  | _ => cases h

/-- The words of a string can be written. -/
theorem legible_of_mem_operands {value : String} :
    ∀ operand ∈ StringWords.operands value, operand.Legible := by
  intro operand hoperand
  obtain ⟨word, -, rfl⟩ := List.mem_map.mp hoperand
  trivial

/-- What the tokens of a line offer stands for operands that can be written again. -/
theorem Offers.legible {fields : List Field} {items rest : List Located}
    (h : (ofLine types line stop).Offers fields items rest)
    (hitems : ∀ t ∈ items, WellFormed t.token) :
    ∀ operand ∈ fields.flatMap Field.operands, operand.Legible := by
  induction h with
  | nil => exact List.forall_mem_nil _
  | reg hitem _ ih =>
    exact List.forall_mem_cons.mpr
      ⟨legible_of_reg hitem, ih fun t ht ↦ hitems t (List.mem_cons_of_mem _ ht)⟩
  | literal _ _ ih | symbol _ _ ih | extNumber _ _ ih =>
    exact List.forall_mem_cons.mpr ⟨trivial, ih fun t ht ↦ hitems t (List.mem_cons_of_mem _ ht)⟩
  | text hitem _ ih =>
    obtain ⟨-, -, rfl⟩ := text_eq_ok.mp hitem
    exact List.forall_mem_append.mpr
      ⟨legible_of_mem_operands, ih fun t ht ↦ hitems t (List.mem_cons_of_mem _ ht)⟩
  | plain hitem _ ih =>
    exact List.forall_mem_cons.mpr ⟨legible_of_plain (hitems _ List.mem_cons_self) hitem,
      ih fun t ht ↦ hitems t (List.mem_cons_of_mem _ ht)⟩

end Supply

/-- All operands of an instruction that was read can be written, but for the words of a constant. -/
theorem Instruction.WasRead.legible {i : Instruction} (h : i.WasRead)
    (hopcode : i.opcode ≠ .opConstant) : ∀ operand ∈ i.operands, operand.Legible := by
  obtain ⟨context, first, rest, stop, context', hread, hrest⟩ := h
  obtain ⟨opcode, fields, -, hlaid, rfl, -⟩ := read_eq_ok.mp hread
  obtain ⟨hoffers, -⟩ := Supply.repeats_layOut (Supply.strict_ofLine _ _ _)
    (Supply.lawful_ofLine context.types 0 stop) context.registry hopcode _ _ _ hlaid
  exact hoffers.legible hrest

/-! ## Fields of written operands -/

theorem Reg.ofNumber?_number {r : Reg} (h : r.number < 2 ^ 32) :
    Reg.ofNumber? (r.index + 1) = some r := by
  have hsucc : (r.index + 1).toNat = r.number := by
    rw [UInt32.toNat_add]
    exact Nat.mod_eq_of_lt h
  have hzero : r.index + 1 ≠ 0 := by
    intro hzero
    rw [hzero] at hsucc
    cases hsucc
  rw [Reg.ofNumber?, if_neg hzero]
  exact congrArg (some ∘ Reg.mk) (UInt32.add_sub_cancel r.index 1)

namespace Supply

variable {i : Instruction} {fields : List Field} {items rest : List (Operand × Nat)}

/-- An operand that can be written is read back as the same operand. -/
theorem speltBy_plain_of_legible (types : List (Reg × ScalarType)) {operand : Operand}
    (h : operand.Legible) : ∃ t, Field.SpeltBy types (.plain operand) t := by
  have hplain : ∀ item : Located, WellFormed item.token →
      (ofLine types 1 ⟨.eof, 1⟩).plain item = .ok operand →
        ∃ t, Field.SpeltBy types (.plain operand) t := fun item ↦ exists_speltBy_plain
  cases operand with
  | reg r =>
    exact hplain ⟨.id (r.index + 1), 1⟩ rfl
      (map_eq_ok.mpr ⟨r, regOf_eq_ok.mpr (Reg.ofNumber?_number h), rfl⟩)
  | imm word =>
    exact hplain ⟨.int (signedWord word), 1⟩ rfl
      (map_eq_ok.mpr ⟨word, wordOf_signedWord word _, rfl⟩)
  | expr symbol => exact hplain ⟨.ident symbol, 1⟩ h rfl

theorem speltBy_reg_of_legible (types : List (Reg × ScalarType)) {r : Reg}
    (h : (Operand.reg r).Legible) : ∃ t, Field.SpeltBy types (.reg r) t := by
  have hreg : (ofLine types 1 ⟨.eof, 1⟩).reg ⟨.id (r.index + 1), 1⟩ = .ok r :=
    regOf_eq_ok.mpr (Reg.ofNumber?_number h)
  exact exists_speltBy_reg hreg

/-- Fields that stand for operands, and each of which some token is taken for. -/
def StandFor (types : List (Reg × ScalarType)) (fields : List Field) (operands : List Operand) :
    Prop :=
  fields.flatMap Field.operands = operands ∧ ∃ ts, List.Forall₂ (Field.SpeltBy types) fields ts

theorem StandFor.append {types : List (Reg × ScalarType)} {front back : List Field}
    {operands operands' : List Operand} (h : StandFor types front operands)
    (h' : StandFor types back operands') :
    StandFor types (front ++ back) (operands ++ operands') := by
  obtain ⟨rfl, ts, hts⟩ := h
  obtain ⟨rfl, us, hus⟩ := h'
  exact ⟨List.flatMap_append, ts ++ us, List.rel_append hts hus⟩

theorem StandFor.cons {types : List (Reg × ScalarType)} {field : Field} {back : List Field}
    {operands : List Operand} (h : ∃ t, Field.SpeltBy types field t)
    (h' : StandFor types back operands) :
    StandFor types (field :: back) (field.operands ++ operands) := by
  obtain ⟨t, ht⟩ := h
  obtain ⟨rfl, us, hus⟩ := h'
  exact ⟨rfl, t :: us, .cons ht hus⟩

/-- Fields without strings that are offered by operands stand for them. -/
theorem Offers.standFor (types : List (Reg × ScalarType))
    (h : (Supply.ofInstruction i).Offers fields items rest)
    (htext : ∀ field ∈ fields, field.isText = false) (hitems : ∀ item ∈ items, item.1.Legible) :
    ∃ front, items = front ++ rest ∧ StandFor types fields (front.map (·.1)) := by
  induction h with
  | nil items => exact ⟨[], rfl, rfl, [], .nil⟩
  | @reg r item _ _ _ hitem _ ih =>
    obtain ⟨hfirst, hmore⟩ := List.forall_mem_cons.mp hitems
    obtain ⟨front, rfl, hfront⟩ := ih (List.forall_mem_cons.mp htext).2 hmore
    have hitem := reg_of_ofInstruction hitem
    rw [hitem] at hfirst
    refine ⟨item :: front, rfl, ?_⟩
    rw [List.map_cons, hitem]
    exact .cons (speltBy_reg_of_legible types hfirst) hfront
  | @literal word item _ _ _ hitem _ ih =>
    obtain ⟨front, rfl, hfront⟩ :=
      ih (List.forall_mem_cons.mp htext).2 (List.forall_mem_cons.mp hitems).2
    refine ⟨item :: front, rfl, ?_⟩
    rw [List.map_cons, imm_of_wordAt hitem]
    exact .cons ⟨_, speltBy_literal types word⟩ hfront
  | @symbol category word item _ _ _ hitem _ ih =>
    obtain ⟨front, rfl, hfront⟩ :=
      ih (List.forall_mem_cons.mp htext).2 (List.forall_mem_cons.mp hitems).2
    refine ⟨item :: front, rfl, ?_⟩
    rw [List.map_cons, imm_of_wordAt hitem]
    exact .cons (exists_speltBy_symbol types category word) hfront
  | @extNumber set word item _ _ _ hitem _ ih =>
    obtain ⟨front, rfl, hfront⟩ :=
      ih (List.forall_mem_cons.mp htext).2 (List.forall_mem_cons.mp hitems).2
    refine ⟨item :: front, rfl, ?_⟩
    rw [List.map_cons, imm_of_wordAt hitem]
    exact .cons (exists_speltBy_extNumber types set word) hfront
  | text => cases (List.forall_mem_cons.mp htext).1
  | @plain operand item _ _ _ hitem _ ih =>
    obtain ⟨hfirst, hmore⟩ := List.forall_mem_cons.mp hitems
    obtain ⟨front, rfl, hfront⟩ := ih (List.forall_mem_cons.mp htext).2 hmore
    cases hitem
    exact ⟨item :: front, rfl, .cons (speltBy_plain_of_legible types hfirst) hfront⟩

/-- A constant is laid out alike whatever sets are imported. -/
theorem exists_shows_opConstant {line : Nat} {stop : Located} {items left : List Located}
    {types : List (Reg × ScalarType)} {registry registry' : Registry} {read : List Field}
    (hread : (ofLine types line stop).layOut registry .opConstant items = ⟨read, .ok left⟩)
    (hlaid : (Instruction.ofFields .opConstant read).layOut registry' = ⟨fields, .ok rest⟩) :
    ∃ ts, List.Forall₂ Field.Shows fields ts := by
  obtain ⟨first, second, more, type, result, value, rfl, htype, hresult, hvalue, rfl⟩ :=
    layOut_opConstant_eq_ok.mp hread
  obtain ⟨scalar, t, -, rfl, hliteral⟩ := constant_ofLine_eq_ok.mp hvalue
  rw [Instruction.ofFields_constant, layOut_define] at hlaid
  cases hlaid
  obtain ⟨u, hu⟩ := exists_speltBy_reg htype
  obtain ⟨v, hv⟩ := exists_speltBy_reg hresult
  obtain ⟨w, hw⟩ := (ScalarType.holds_of_literalOf hliteral).exists_spells
  exact ⟨[u, v, w], .cons hu.1 (.cons hv.1 (.cons (Field.shows_of_spells rfl hw) .nil))⟩

/-- An extended instruction is laid out without strings, by whichever set its handle stands for. -/
theorem exists_shows_opExtInst {registry : Registry}
    (hlegible : ∀ operand ∈ i.operands, operand.Legible)
    (hlaid : (Supply.ofInstruction i).layOut registry .opExtInst i.operands.zipIdx =
      ⟨fields, .ok rest⟩) : ∃ ts, List.Forall₂ Field.Shows fields ts := by
  obtain ⟨front, ⟨values, mid⟩, back, hfixed, htail, rfl⟩ := Transcript.bind_eq_ok.mp hlaid
  obtain ⟨hfront, -⟩ := repeats_fixedOperands (Supply.ofInstruction i) hfixed
  have hrepeats : Repeats (Supply.ofInstruction i) (Supply.ofInstruction i) _ _ :=
    repeats_extInstTail .opExtInst values
  obtain ⟨hback, -⟩ := hrepeats _ _ _ htail
  obtain ⟨hkinds, -⟩ := isFixed_of_fixedOperands hfixed
  have htext : ∀ field ∈ front ++ back, field.isText = false :=
    List.forall_mem_append.mpr ⟨fun field hfield ↦ Field.isText_of_isFixed (hkinds field hfield),
      isText_of_extInstTail htail⟩
  obtain ⟨-, -, -, ts, hts⟩ := (hfront.append hback).standFor [] htext
    fun item hitem ↦ hlegible _ (List.fst_mem_of_mem_zipIdx hitem)
  exact ⟨ts, hts.imp fun _ _ h ↦ h.1⟩

end Supply

/-- What was read is written as tokens, also after other imports than those it was read after. -/
theorem Instruction.WasRead.exists_shows {i : Instruction} (h : i.WasRead) {registry : Registry}
    {fields : List Field} {rest : List (Operand × Nat)}
    (hlaid : i.layOut registry = ⟨fields, .ok rest⟩) :
    ∃ ts, List.Forall₂ Field.Shows fields ts := by
  have hlegible := h.legible
  obtain ⟨context, first, words, stop, context', hread, hwords⟩ := h
  obtain ⟨opcode, fields', -, hlaid', rfl, -⟩ := read_eq_ok.mp hread
  by_cases hconstant : opcode = .opConstant
  · subst hconstant
    exact Supply.exists_shows_opConstant hlaid' hlaid
  by_cases hextInst : opcode = .opExtInst
  · subst hextInst
    exact Supply.exists_shows_opExtInst (hlegible hconstant) hlaid
  · obtain ⟨hstable, ts, hts, -⟩ := Supply.stable_of_layOut hconstant hlaid' hwords
    have hsame : (ofFields opcode fields').layOut registry = _ :=
      Supply.layOut_congr _ hextInst registry context.registry _
    cases (hsame.trans hstable).symm.trans hlaid
    exact ⟨ts, hts⟩

/-! ## Modules -/

namespace Module

theorem wasRead_of_mem_lineInstructions {context : ReadContext} {lines : List Line}
    (hlines : ∀ line ∈ lines, ∀ t ∈ line.tokens, WellFormed t.token) :
    ∀ i ∈ lineInstructions context lines, i.WasRead := by
  intro i hi
  obtain ⟨before, after, first, rest, stop, hline, hread⟩ := exists_read_of_mem_lineInstructions hi
  exact ⟨before, first, rest, stop, after, hread,
    fun t ht ↦ hlines _ hline t (List.mem_cons_of_mem _ ht)⟩

/-- Every instruction of a module that was read was read from some line. -/
theorem wasRead_of_read {source name : String} {m : Module}
    (h : (read source name).result = .ok m) : ∀ i ∈ m.instructions, i.WasRead := by
  obtain ⟨ts, a, hts, ha, hopen, rfl⟩ := read_eq_ok.mp h
  intro i hi
  rw [instructions_nameFunctions] at hi
  have hmem : i ∈ a.instructions := by
    simpa [Assembly.instructions, hopen, instructions] using hi
  have hline : i ∈ lineInstructions {} (Line.split ts) := by
    rcases Assembly.mem_of_foldlM_add (foldlM_add_lineInstructions ha)
      regular_of_mem_lineInstructions hmem with hnone | hline
    · simp [Assembly.instructions] at hnone
    · exact hline
  refine wasRead_of_mem_lineInstructions (fun line hline t ht ↦ ?_) i hline
  obtain ⟨hmem, hend⟩ := Line.mem_split hline t ht
  exact wellFormed_of_tokens hts t hmem hend

end Module

end SpirvText
