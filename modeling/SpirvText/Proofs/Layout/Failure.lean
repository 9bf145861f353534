import SpirvText.Instruction.Writer
import SpirvText.Proofs.Layout.Fields

/-!
# Why a layout fails

If every error of a supply is of some kind, and so is every defect that the layout reports to it,
then all errors of a layout are of this kind, except that a set may not have been imported.  An
instruction cannot be written for want of a set just if it is an extended instruction whose handle
stands for none (`Instruction.layOut_eq_unboundSet`).
-/

namespace SpirvText

namespace Transcript

variable {ω ε α β : Type} {kind : ε → Prop}

/-- A computation whose errors are of one kind. -/
def FailsOnly (kind : ε → Prop) (x : Transcript ω ε α) : Prop := ∀ e, x.result = .error e → kind e

theorem failsOnly_pure (a : α) : (pure a : Transcript ω ε α).FailsOnly kind := nofun

theorem failsOnly_fail {e : ε} (h : kind e) : (fail e : Transcript ω ε α).FailsOnly kind := by
  rintro _ ⟨⟩
  exact h

theorem failsOnly_liftM {x : Except ε α} (h : ∀ e, x = .error e → kind e) :
    (liftM x : Transcript ω ε α).FailsOnly kind := h

/-- The errors of two stages are of one kind if those of each stage are. -/
theorem FailsOnly.bind {x : Transcript ω ε α} {k : α → Transcript ω ε β} (hx : x.FailsOnly kind)
    (hk : ∀ a, (k a).FailsOnly kind) : (x >>= k).FailsOnly kind := by
  intro e he
  rw [result_bind] at he
  cases hresult : x.result with
  | error e' =>
    rw [hresult] at he
    cases he
    exact hx e hresult
  | ok a =>
    rw [hresult] at he
    exact hk a e he

theorem FailsOnly.put_bind {entry : ω} {k : Unit → Transcript ω ε β}
    (hk : (k ()).FailsOnly kind) : (put entry >>= k).FailsOnly kind :=
  FailsOnly.bind nofun fun _ ↦ hk

/-- An error comes from the first stage, or from the second one after a value. -/
theorem bind_eq_error {x : Transcript ω ε α} {k : α → Transcript ω ε β} {e : ε} :
    (x >>= k).result = .error e ↔
      x.result = .error e ∨ ∃ front a, x = ⟨front, .ok a⟩ ∧ (k a).result = .error e := by
  obtain ⟨front, result⟩ := x
  cases result with
  | error e' => simp [bind]
  | ok a => simp [bind]

end Transcript

namespace Supply

open Transcript

variable {ι ε : Type} {s : Supply ι ε} {kind : ε → Prop}

/-- A supply whose errors are of one kind, and to which defects are reported as errors of this
kind. -/
structure FailsOnly (s : Supply ι ε) (kind : ε → Prop) : Prop where
  reg : ∀ item e, s.reg item = .error e → kind e
  literal : ∀ item e, s.literal item = .error e → kind e
  symbol : ∀ category item e, s.symbol category item = .error e → kind e
  extNumber : ∀ set item e, s.extNumber set item = .error e → kind e
  plain : ∀ item e, s.plain item = .error e → kind e
  skip : ∀ item e, s.skip item = .error e → kind e
  text : ∀ item items e, s.text item items = .error e → kind e
  constant : ∀ type items e, s.constant type items = .error e → kind e
  malformed : ∀ opcode defect, kind (s.error (.malformed opcode defect))

section Tails

variable (hs : s.FailsOnly kind) (opcode : Opcode)

include hs

theorem failsOnly_plainTail (items : List ι) : (s.plainTail items).FailsOnly kind := by
  induction items with
  | nil => exact failsOnly_pure _
  | cons item items ih =>
    exact (failsOnly_liftM (hs.plain item)).bind fun _ ↦ .put_bind ih

theorem failsOnly_interfaceTail (items : List ι) : (s.interfaceTail items).FailsOnly kind := by
  induction items with
  | nil => exact failsOnly_pure _
  | cons item items ih =>
    rw [interfaceTail]
    split
    · exact (failsOnly_liftM (hs.skip item)).bind fun _ ↦ .put_bind ih
    · exact (failsOnly_liftM (hs.plain item)).bind fun _ ↦ .put_bind ih

theorem failsOnly_symbolTail (category : Category) (item : ι) (items : List ι) :
    (s.symbolTail category item items).FailsOnly kind :=
  (failsOnly_liftM (hs.symbol category item)).bind fun _ ↦ .put_bind (failsOnly_pure _)

theorem failsOnly_textTail (items : List ι) : (s.textTail opcode items).FailsOnly kind := by
  cases items with
  | nil => exact failsOnly_fail (hs.malformed _ _)
  | cons item items =>
    exact (failsOnly_liftM (hs.text item items)).bind fun _ ↦ .put_bind (failsOnly_pure _)

theorem failsOnly_decorationTail (form : DecorationForm) (items : List ι) :
    (s.decorationTail opcode form items).FailsOnly kind := by
  cases items with
  | nil => exact failsOnly_pure _
  | cons item items =>
    cases form with
    | builtIn | funcParamAttr | fpRoundingMode | fpFastMathMode =>
      exact failsOnly_symbolTail hs _ _ _
    | uniformId =>
      simp only [decorationTail]
      split
      · exact failsOnly_symbolTail hs _ _ _
      · exact (failsOnly_liftM (hs.plain item)).bind fun _ ↦ .put_bind (failsOnly_pure _)
    | linkageAttributes =>
      refine (failsOnly_textTail hs opcode (item :: items)).bind fun rest ↦ ?_
      cases rest with
      | nil => exact failsOnly_fail (hs.malformed _ _)
      | cons type rest => exact failsOnly_symbolTail hs _ _ _
    | userSemantic => exact failsOnly_textTail hs opcode _
    | other => exact failsOnly_plainTail hs _

theorem failsOnly_roundingTail (name : String) (items : List ι) :
    (s.roundingTail opcode name items).FailsOnly kind := by
  induction items with
  | nil => exact failsOnly_fail (hs.malformed _ _)
  | cons item items ih =>
    cases items with
    | nil => exact failsOnly_symbolTail hs _ _ _
    | cons next items => exact (failsOnly_liftM (hs.plain item)).bind fun _ ↦ .put_bind ih

theorem failsOnly_extInstTail (values : FixedValues) (items : List ι) :
    (s.extInstTail opcode values items).FailsOnly kind := by
  unfold extInstTail
  split
  · split
    · exact failsOnly_roundingTail hs opcode _ _
    · exact failsOnly_plainTail hs _
  · exact failsOnly_fail (hs.malformed _ _)

theorem failsOnly_memoryTail (items : List ι) : (s.memoryTail opcode items).FailsOnly kind := by
  induction items using memoryTail.induct (s := s) with
  | case1 => exact failsOnly_pure _
  | case2 item items himm ihrest ih =>
    rw [memoryTail.eq_def]
    simp only [himm, if_true]
    refine (failsOnly_liftM (hs.symbol _ item)).bind fun mask ↦ .put_bind ?_
    split
    · cases items with
      | nil => exact failsOnly_fail (hs.malformed _ _)
      | cons next rest =>
        dsimp only
        split
        · exact (failsOnly_liftM (hs.literal next)).bind fun _ ↦ .put_bind ihrest
        · exact failsOnly_fail (hs.malformed _ _)
    · exact ih
  | case3 item items himm =>
    rw [memoryTail.eq_def]
    simp only [himm]
    exact failsOnly_fail (hs.malformed _ _)

theorem failsOnly_imageTail (items : List ι) : (s.imageTail opcode items).FailsOnly kind := by
  cases items with
  | nil => exact failsOnly_pure _
  | cons item items =>
    rw [imageTail]
    split
    · exact (failsOnly_symbolTail hs _ _ _).bind fun _ ↦ failsOnly_plainTail hs _
    · exact failsOnly_fail (hs.malformed _ _)

/-- The errors of every tail are those of the supply, or defects. -/
theorem failsOnly_tail (values : FixedValues) (items : List ι) (tail : Tail) :
    (s.tail opcode values items tail).FailsOnly kind := by
  cases tail with
  | empty => exact failsOnly_pure _
  | plain => exact failsOnly_plainTail hs _
  | constant =>
    rw [Supply.tail]
    split
    · exact failsOnly_fail (hs.malformed _ _)
    · exact (failsOnly_liftM (hs.constant _ _)).bind fun _ ↦ .put_bind (failsOnly_pure _)
  | text => exact failsOnly_textTail hs opcode _
  | textInterface =>
    exact (failsOnly_textTail hs opcode _).bind fun _ ↦ failsOnly_interfaceTail hs _
  | decoration =>
    rw [Supply.tail]
    split
    · exact failsOnly_fail (hs.malformed _ _)
    · exact failsOnly_decorationTail hs opcode _ _
  | extInst => exact failsOnly_extInstTail hs opcode values _
  | memoryAccess => exact failsOnly_memoryTail hs opcode _
  | imageOperands => exact failsOnly_imageTail hs opcode _
  | optionalSymbol category =>
    cases items with
    | nil => exact failsOnly_pure _
    | cons item items => exact failsOnly_symbolTail hs _ _ _

/-- Fixed operands of which none is the number of an extended instruction. -/
theorem failsOnly_fixedOperands (registry : Registry) {kinds : List OperandKind}
    (hkinds : .extNumber ∉ kinds) (index : Nat) (values : FixedValues) (items : List ι) :
    (s.fixedOperands registry opcode kinds index values items).FailsOnly kind := by
  induction kinds generalizing index values items with
  | nil => exact failsOnly_pure _
  | cons operand kinds ih =>
    cases items with
    | nil => exact failsOnly_fail (hs.malformed _ _)
    | cons item items =>
      refine FailsOnly.bind ?_ fun values ↦
        ih (fun h ↦ hkinds (List.mem_cons_of_mem _ h)) _ values items
      cases operand with
      | id => exact (failsOnly_liftM (hs.reg item)).bind fun _ ↦ .put_bind (failsOnly_pure _)
      | literal =>
        exact (failsOnly_liftM (hs.literal item)).bind fun _ ↦ .put_bind (failsOnly_pure _)
      | symbol category =>
        exact (failsOnly_liftM (hs.symbol category item)).bind fun _ ↦
          .put_bind (failsOnly_pure _)
      | extNumber => exact absurd List.mem_cons_self hkinds

/-- The number of an extended instruction may also be missing its set. -/
theorem fixedOperand_extNumber_eq_error {registry : Registry} {opcode : Opcode}
    {values : FixedValues} {item : ι} {e : ε}
    (h : (s.fixedOperand registry opcode .extNumber values item).result = .error e) :
    kind e ∨ ∃ handle, values.regs.getLast? = some handle ∧ registry.find? handle = none ∧
      e = s.error (.unboundSet handle) := by
  cases hhandle : values.regs.getLast? with
  | none =>
    simp only [fixedOperand, hhandle] at h
    cases h
    exact .inl (hs.malformed _ _)
  | some handle =>
    cases hset : registry.find? handle with
    | none =>
      simp only [fixedOperand, hhandle, hset] at h
      cases h
      exact .inr ⟨handle, rfl, hset, rfl⟩
    | some set =>
      simp only [fixedOperand, hhandle, hset] at h
      rcases bind_eq_error.mp h with hitem | ⟨_, word, -, hrest⟩
      · exact .inl (hs.extNumber set item e hitem)
      · cases hrest

/-- Laying out any instruction but an extended one fails only in ways that the supply does. -/
theorem failsOnly_layOut (registry : Registry) (hopcode : opcode ≠ .opExtInst) (items : List ι) :
    (s.layOut registry opcode items).FailsOnly kind :=
  (failsOnly_fixedOperands hs opcode registry (Opcode.extNumber_notMem_fixed hopcode) _ _ _).bind
    fun _ ↦ failsOnly_tail hs opcode _ _ _

end Tails

end Supply

/-! ## Sets that are not imported -/

/-- An error other than that a set is not imported. -/
def OperandError.isDefect : OperandError → Bool
  | unboundSet _ => false
  | _ => true

namespace Supply

variable {i : Instruction}

/-- What is not a word is a defect where one is wanted. -/
theorem isDefect_of_wordAt {opcode : Opcode} {wanted : Wanted} (item : Operand × Nat)
    (e : OperandError) (h : wordAt opcode wanted item = .error e) : e.isDefect = true := by
  obtain ⟨operand, position⟩ := item
  cases operand <;> cases h <;> rfl

theorem isDefect_of_reg (item : Operand × Nat) (e : OperandError)
    (h : (ofInstruction i).reg item = .error e) : e.isDefect = true := by
  obtain ⟨operand, position⟩ := item
  cases operand <;> cases h <;> rfl

/-- What is wrong with the operands of an instruction is a defect. -/
theorem failsOnly_ofInstruction (i : Instruction) :
    (ofInstruction i).FailsOnly fun e ↦ e.isDefect = true where
  reg item e h := isDefect_of_reg item e h
  literal item e h := isDefect_of_wordAt item e h
  symbol _ item e h := isDefect_of_wordAt item e h
  extNumber _ item e h := isDefect_of_wordAt item e h
  plain item e h := by cases h
  skip item e h := by cases h
  text item items e h := by
    simp only [ofInstruction] at h
    split at h
    · cases h
    · cases h
      rfl
  constant type items e h := by
    simp only [ofInstruction] at h
    split at h
    · cases h
      rfl
    · split at h
      · cases h
      · cases h
        rfl
  malformed _ _ := rfl

/-- A set that is not imported is not looked for before the register in front of it. -/
theorem fixedOperands_id_eq_unboundSet {registry : Registry} {opcode : Opcode}
    {kinds : List OperandKind} {index : Nat} {values : FixedValues} {items : List (Operand × Nat)}
    {handle : Reg}
    (h : ((ofInstruction i).fixedOperands registry opcode (.id :: kinds) index values
      items).result = .error (.unboundSet handle)) :
    ∃ r position more, items = (.reg r, position) :: more ∧
      ((ofInstruction i).fixedOperands registry opcode kinds (index + 1)
        { values with regs := values.regs ++ [r] } more).result = .error (.unboundSet handle) := by
  cases items with
  | nil => cases h
  | cons item more =>
    obtain ⟨operand, position⟩ := item
    cases operand with
    | reg r => exact ⟨r, position, more, rfl, h⟩
    | _ => cases h

end Supply

namespace Instruction

variable {i : Instruction} {registry : Registry} {handle : Reg}

theorem reg?_of_zipIdx {items : List (Operand × Nat)} {index position : Nat} {r : Reg}
    (hitems : i.operands.zipIdx = items) (hitem : items[index]? = some (.reg r, position)) :
    i.reg? index = some r := by
  have hoperand : i.operands[index]? = some (.reg r) := by
    rw [← List.zipIdx_map_fst 0 i.operands, hitems, List.getElem?_map, hitem, Option.map_some]
  rw [reg?, hoperand, Option.bind_some, Operand.reg?]

/-- An instruction cannot be written for want of a set only if it is an extended instruction whose
handle stands for none. -/
theorem layOut_eq_unboundSet (h : (i.layOut registry).result = .error (.unboundSet handle)) :
    i.opcode = .opExtInst ∧ i.reg? 2 = some handle ∧ registry.find? handle = none := by
  have hs := Supply.failsOnly_ofInstruction i
  by_cases hopcode : i.opcode = .opExtInst
  · rw [layOut, Supply.layOut, hopcode, Transcript.bind_eq_error] at h
    rcases h with hfixed | ⟨_, _, -, htail⟩
    · obtain ⟨first, _, more₁, hitems, h₁⟩ := Supply.fixedOperands_id_eq_unboundSet hfixed
      obtain ⟨second, _, more₂, rfl, h₂⟩ := Supply.fixedOperands_id_eq_unboundSet h₁
      obtain ⟨third, _, more₃, rfl, h₃⟩ := Supply.fixedOperands_id_eq_unboundSet h₂
      have hthird : i.reg? 2 = some third := reg?_of_zipIdx hitems rfl
      cases more₃ with
      | nil => cases h₃
      | cons item more =>
        rcases Transcript.bind_eq_error.mp h₃ with hnumber | ⟨_, _, -, hpure⟩
        · rcases Supply.fixedOperand_extNumber_eq_error hs hnumber with
            hdefect | ⟨_, hlast, hset, ⟨⟩⟩
          · cases hdefect
          · obtain rfl : third = handle := Option.some.inj hlast
            exact ⟨hopcode, hthird, hset⟩
        · cases hpure
    · cases Supply.failsOnly_tail hs _ _ _ _ _ htail
  · cases Supply.failsOnly_layOut hs _ registry hopcode _ _ h

end Instruction

end SpirvText
