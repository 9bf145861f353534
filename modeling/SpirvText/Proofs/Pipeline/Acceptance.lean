import SpirvText.Proofs.Pipeline.Validity

/-!
# The modules that validation accepts

Validation goes through a module once, stops at the first thing that is wrong and carries the
imports along.  Here what it accepts is said of the instructions alone (`Module.Valid`): how a block
ends, where its last instruction branches to, and what stands somewhere before an extended
instruction.  The two are the same (`Module.violations_eq_nil_iff_valid`).
-/

namespace SpirvText

/-! ## Branches -/

namespace Operand

variable {operands : List Operand} {r : Reg}

theorem reg?_eq_some_iff {operand : Operand} : operand.reg? = some r ↔ operand = .reg r := by
  cases operand <;> simp [reg?]

theorem mem_filterMap_reg?_iff :
    r ∈ operands.filterMap reg? ↔ ∃ k : Nat, operands[k]? = some (.reg r) := by
  rw [List.mem_filterMap]
  constructor
  · rintro ⟨operand, hoperand, hr⟩
    obtain rfl := reg?_eq_some_iff.mp hr
    exact List.mem_iff_getElem?.mp hoperand
  · rintro ⟨k, hk⟩
    exact ⟨.reg r, List.mem_of_getElem? hk, rfl⟩

end Operand

namespace Instruction

variable {i : Instruction} {target handle : Reg}

/-- An instruction may pass control on: a branch to its operand, a conditional branch to the two
after its condition, and a switch to every register after its selector. -/
inductive BranchesTo (i : Instruction) (target : Reg) : Prop
  | branch : i.opcode = .opBranch → i.operands[0]? = some (.reg target) → BranchesTo i target
  | conditional {k : Nat} : i.opcode = .opBranchConditional → k = 1 ∨ k = 2 →
      i.operands[k]? = some (.reg target) → BranchesTo i target
  | switch {k : Nat} : i.opcode = .opSwitch → 1 ≤ k → i.operands[k]? = some (.reg target) →
      BranchesTo i target

/-- The successors of an instruction are the labels that it may branch to. -/
theorem mem_successors_iff : target ∈ i.successors ↔ i.BranchesTo target := by
  unfold successors
  constructor
  · intro h
    split at h
    · next hopcode =>
      obtain ⟨k, hk⟩ := Operand.mem_filterMap_reg?_iff.mp h
      obtain ⟨hlt, hk⟩ := Option.ite_none_right_eq_some.mp (List.getElem?_take ▸ hk)
      obtain rfl : k = 0 := by omega
      exact .branch hopcode hk
    · next hopcode =>
      obtain ⟨k, hk⟩ := Operand.mem_filterMap_reg?_iff.mp h
      obtain ⟨hlt, hk⟩ := Option.ite_none_right_eq_some.mp (List.getElem?_take ▸ hk)
      rw [List.getElem?_drop] at hk
      exact .conditional hopcode (by omega) hk
    · next hopcode =>
      obtain ⟨k, hk⟩ := Operand.mem_filterMap_reg?_iff.mp h
      rw [List.getElem?_drop] at hk
      exact .switch hopcode (Nat.le_add_right 1 k) hk
    · cases h
  · rintro (⟨hopcode, hk⟩ | ⟨hopcode, hpos, hk⟩ | ⟨hopcode, hpos, hk⟩) <;>
      rw [hopcode] <;> apply Operand.mem_filterMap_reg?_iff.mpr
    · exact ⟨0, by simpa using hk⟩
    · rcases hpos with rfl | rfl
      · exact ⟨0, by simpa using hk⟩
      · exact ⟨1, by simpa using hk⟩
    · next k =>
      refine ⟨k - 1, ?_⟩
      rwa [List.getElem?_drop, Nat.add_sub_cancel' hpos]

theorem reg?_eq_some_iff {k : Nat} : i.reg? k = some handle ↔ i.operands[k]? = some (.reg handle) := by
  simp only [reg?, Option.bind_eq_some_iff, Operand.reg?_eq_some_iff, exists_eq_right]

end Instruction

/-! ## Blocks -/

namespace Block

variable {b : Block} {last : Instruction} {labels : List Reg}

/-- The last instruction of a block is a terminator, and none of the others is. -/
def EndsOnce (b : Block) : Prop :=
  ∃ body last, b.instrs = body ++ [last] ∧ last.isTerminator = true ∧
    ∀ i ∈ body, i.isTerminator = false

/-- The last instruction of a block may pass control to `target`. -/
def BranchesTo (b : Block) (target : Reg) : Prop :=
  ∃ body last, b.instrs = body ++ [last] ∧ last.BranchesTo target

/-- The terminator of a block is its last instruction, if that is one. -/
theorem terminator?_eq_some_iff :
    b.terminator? = some last ↔ ∃ body, b.instrs = body ++ [last] ∧ last.isTerminator = true := by
  rw [terminator?, Option.filter_eq_some_iff, List.getLast?_eq_some_iff, exists_and_right]

theorem mem_successors_iff_of_terminator? (h : b.terminator? = some last) {target : Reg} :
    target ∈ b.successors ↔ b.BranchesTo target := by
  obtain ⟨body, hinstrs, -⟩ := terminator?_eq_some_iff.mp h
  rw [successors, h, Instruction.mem_successors_iff]
  constructor
  · exact fun htarget ↦ ⟨body, last, hinstrs, htarget⟩
  · rintro ⟨body', last', hinstrs', htarget⟩
    obtain ⟨-, hlast⟩ := List.append_inj' (hinstrs.symm.trans hinstrs') rfl
    rwa [List.singleton_inj.mp hlast]

theorem sound_iff :
    b.Sound labels ↔ b.EndsOnce ∧ ∀ target, b.BranchesTo target → target ∈ labels := by
  constructor
  · rintro ⟨hbody, hsealed, htargets⟩
    obtain ⟨last, hlast⟩ := Option.isSome_iff_exists.mp hsealed
    obtain ⟨body, hinstrs, hterminator⟩ := terminator?_eq_some_iff.mp hlast
    rw [hinstrs, List.dropLast_concat] at hbody
    refine ⟨⟨body, last, hinstrs, hterminator, hbody⟩, fun target htarget ↦ ?_⟩
    exact htargets target ((mem_successors_iff_of_terminator? hlast).mpr htarget)
  · rintro ⟨⟨body, last, hinstrs, hterminator, hbody⟩, htargets⟩
    have hlast := terminator?_eq_some_iff.mpr ⟨body, hinstrs, hterminator⟩
    refine ⟨?_, ?_, fun target htarget ↦ ?_⟩
    · rwa [hinstrs, List.dropLast_concat]
    · rw [isSealed, hlast]
      rfl
    · exact htargets target ((mem_successors_iff_of_terminator? hlast).mp htarget)

end Block

/-! ## Imports -/

/-- The set of each extended instruction is imported by an instruction before it. -/
def ImportedBefore (instrs : List Instruction) : Prop :=
  ∀ before i after, instrs = before ++ i :: after → i.opcode = .opExtInst →
    ∀ handle, i.operands[2]? = some (.reg handle) →
      ∃ j ∈ before, j.opcode = .opExtInstImport ∧ j.operands[0]? = some (.reg handle)

/-- Imports come first if every use has its import before it or among those known at the start. -/
theorem importsFirst_iff {imports : List Reg} {instrs : List Instruction} :
    ImportsFirst imports instrs ↔ ∀ before i after, instrs = before ++ i :: after →
      ∀ handle ∈ i.usedHandle?, handle ∈ importsAfter imports before := by
  constructor
  · rintro h before i after rfl
    exact (importsFirst_append.mp h).2.1
  · intro h
    induction instrs generalizing imports with
    | nil => trivial
    | cons i instrs ih =>
      constructor
      · intro handle hhandle
        have hmem := h [] i instrs rfl handle hhandle
        rwa [importsAfter, List.filterMap_nil, List.append_nil] at hmem
      · apply ih
        intro before j after hinstrs handle hhandle
        rw [← importsAfter_append]
        exact h (i :: before) j after (congrArg (i :: ·) hinstrs) handle hhandle

/-- With nothing known at the start, every use has its import before it. -/
theorem importsFirst_nil_iff {instrs : List Instruction} :
    ImportsFirst [] instrs ↔ ImportedBefore instrs := by
  rw [importsFirst_iff]
  refine forall₃_congr fun before i after ↦ imp_congr_right fun _ ↦ ?_
  simp only [Option.mem_def, Instruction.usedHandle?_eq_some, Instruction.reg?_eq_some_iff,
    importsAfter, List.nil_append, List.mem_filterMap, Instruction.importedHandle?_eq_some]
  exact ⟨fun h hopcode handle hhandle ↦ h handle ⟨hopcode, hhandle⟩,
    fun h handle hused ↦ h hused.1 handle hused.2⟩

/-! ## Modules -/

namespace Module

variable {m : Module}

structure Valid (m : Module) : Prop where
  ends : ∀ f ∈ m.functions, ∀ b ∈ f.blocks, b.EndsOnce
  /-- Branches go to blocks of the same function. -/
  branches : ∀ f ∈ m.functions, ∀ b ∈ f.blocks, ∀ target, b.BranchesTo target →
    ∃ b' ∈ f.blocks, b'.label = target
  /-- Global instructions come before functions, and these one after the other, block by block. -/
  imports : ImportedBefore (m.globals ++ m.functions.flatMap (·.blocks.flatMap (·.instrs)))

theorem sound_iff :
    m.Sound ↔ (∀ f ∈ m.functions, ∀ b ∈ f.blocks, b.EndsOnce) ∧
      ∀ f ∈ m.functions, ∀ b ∈ f.blocks, ∀ target, b.BranchesTo target →
        ∃ b' ∈ f.blocks, b'.label = target := by
  simp only [Sound, Block.sound_iff, Function.labels, List.mem_map, forall_and]

/-- Nothing is wrong with a module just if it is valid by its instructions. -/
theorem violations_eq_nil_iff_valid : m.violations = [] ↔ m.Valid := by
  rw [violations_eq_nil, sound_iff, importsFirst_nil_iff]
  exact ⟨fun h ↦ ⟨h.1.1, h.1.2, h.2⟩, fun h ↦ ⟨⟨h.ends, h.branches⟩, h.imports⟩⟩

/-- Validation accepts just the valid modules, and changes none of them. -/
theorem accepted_iff_valid (m : Module) :
    ((∃ accepted, (Pass.validate.run m).result = .ok accepted) ↔ m.Valid) ∧
      ∀ accepted, (Pass.validate.run m).result = .ok accepted → accepted = (m, false) := by
  constructor
  · rw [← violations_eq_nil_iff_valid]
    constructor
    · rintro ⟨accepted, haccepted⟩
      exact (Pass.run_validate_eq_ok.mp haccepted).1
    · intro hvalid
      exact ⟨(m, false), Pass.run_validate_eq_ok.mpr ⟨hvalid, rfl⟩⟩
  · intro accepted haccepted
    exact (Pass.run_validate_eq_ok.mp haccepted).2

end Module

end SpirvText
