import SpirvText.Proofs.Instruction.Emission
import SpirvText.Proofs.Layout.Failure
import SpirvText.Proofs.Module.RoundTrip
import SpirvText.Validation

/-!
# Imports before uses

Nothing is wrong with a module just if its blocks are sound and, in the order in which validation
comes upon them, every extended instruction comes after an import of its set
(`Module.violations_eq_nil`).  The writer comes upon them in the same order, and what it can look up
is what has been imported (`Registry.Holds.after`), so a module in which imports come first is never
refused for want of a set (`Module.cause_ne_unboundSet`), and imports come first in a module that is
written (`Module.forall_not_isUse_of_write`).
-/

namespace SpirvText

/-! ## Instructions one after the other -/

/-- Instructions of which each uses only a set that `imports` have or that one before it imports. -/
def ImportsFirst (imports : List Reg) : List Instruction → Prop
  | [] => True
  | i :: instrs =>
    (∀ handle ∈ i.usedHandle?, handle ∈ imports) ∧ ImportsFirst (importsAfter imports [i]) instrs

variable {imports imports' : List Reg} {instrs front back : List Instruction}

theorem mem_importsAfter {handle : Reg} :
    handle ∈ importsAfter imports instrs ↔
      handle ∈ imports ∨ handle ∈ instrs.filterMap Instruction.importedHandle? :=
  List.mem_append

theorem importsAfter_append (imports : List Reg) (front back : List Instruction) :
    importsAfter imports (front ++ back) = importsAfter (importsAfter imports front) back := by
  rw [importsAfter, importsAfter, importsAfter, List.filterMap_append, List.append_assoc]

/-- Instructions may be checked one part after the other. -/
theorem importsFirst_append :
    ImportsFirst imports (front ++ back) ↔
      ImportsFirst imports front ∧ ImportsFirst (importsAfter imports front) back := by
  induction front generalizing imports with
  | nil => simp [ImportsFirst, importsAfter]
  | cons i front ih =>
    rw [List.cons_append, ImportsFirst, ih, ImportsFirst, and_assoc, ← importsAfter_append,
      List.singleton_append]

/-- Only those imports matter whose sets are used. -/
theorem ImportsFirst.mono (h : ImportsFirst imports instrs)
    (hsub : ∀ handle ∈ instrs.filterMap Instruction.usedHandle?,
      handle ∈ imports → handle ∈ imports') : ImportsFirst imports' instrs := by
  induction instrs generalizing imports imports' with
  | nil => trivial
  | cons i instrs ih =>
    obtain ⟨hi, hmore⟩ := h
    constructor
    · intro handle hhandle
      refine hsub handle ?_ (hi handle hhandle)
      exact List.mem_filterMap.mpr ⟨i, List.mem_cons_self, hhandle⟩
    · refine ih hmore fun handle hused hmem ↦ ?_
      obtain ⟨j, hj, hhandle⟩ := List.mem_filterMap.mp hused
      rcases mem_importsAfter.mp hmem with hmem | hnew
      · refine mem_importsAfter.mpr (.inl (hsub handle ?_ hmem))
        exact List.mem_filterMap.mpr ⟨j, List.mem_cons_of_mem _ hj, hhandle⟩
      · exact mem_importsAfter.mpr (.inr hnew)

/-- A set that is used is imported somewhere. -/
theorem ImportsFirst.mem_of_used (h : ImportsFirst imports instrs) {handle : Reg}
    (hused : handle ∈ instrs.filterMap Instruction.usedHandle?) :
    handle ∈ importsAfter imports instrs := by
  induction instrs generalizing imports with
  | nil => cases hused
  | cons i instrs ih =>
    obtain ⟨hi, hmore⟩ := h
    obtain ⟨j, hj, hhandle⟩ := List.mem_filterMap.mp hused
    rcases List.mem_cons.mp hj with rfl | hj
    · exact mem_importsAfter.mpr (.inl (hi handle hhandle))
    · rw [← List.singleton_append, importsAfter_append]
      exact ih hmore (List.mem_filterMap.mpr ⟨j, hj, hhandle⟩)

/-- Whether an instruction imports a set or uses one. -/
def Instruction.concernsSets (i : Instruction) : Bool :=
  i.opcode == .opExtInst || i.opcode == .opExtInstImport

theorem Instruction.handles_of_concernsSets {i : Instruction} (h : i.concernsSets = false) :
    i.usedHandle? = none ∧ i.importedHandle? = none := by
  obtain ⟨huse, himport⟩ := Bool.or_eq_false_iff.mp h
  exact ⟨by rw [usedHandle?, huse]; rfl, by rw [importedHandle?, himport]; rfl⟩

/-- Instructions that neither import nor use sets do not matter. -/
theorem importsFirst_filter :
    ImportsFirst imports (instrs.filter Instruction.concernsSets) ↔
      ImportsFirst imports instrs := by
  induction instrs generalizing imports with
  | nil => rfl
  | cons i instrs ih =>
    cases hi : i.concernsSets with
    | true => rw [List.filter_cons_of_pos hi, ImportsFirst, ImportsFirst, ih]
    | false =>
      obtain ⟨huse, himport⟩ := Instruction.handles_of_concernsSets hi
      have hafter : importsAfter imports [i] = imports := by
        simp [importsAfter, himport]
      rw [List.filter_cons_of_neg (by simp [hi]), ih, ImportsFirst, hafter, huse]
      simp

/-! ## Violations -/

def Violation.isUse : Violation → Bool
  | useBeforeImport .. => true
  | _ => false

/-- A block that ends with its only terminator and branches to blocks with the given labels. -/
structure Block.Sound (b : Block) (labels : List Reg) : Prop where
  body : ∀ i ∈ b.instrs.dropLast, i.isTerminator = false
  isSealed : b.isSealed = true
  targets : ∀ target ∈ b.successors, target ∈ labels

/-- A block stays sound where there are more labels. -/
theorem Block.Sound.congr {b : Block} {labels labels' : List Reg} (h : b.Sound labels)
    (hlabels : ∀ r ∈ labels, r ∈ labels') : b.Sound labels' :=
  ⟨h.body, h.isSealed, fun target htarget ↦ hlabels target (h.targets target htarget)⟩

/-- A use of a set that is not imported is the only thing that can be wrong with one. -/
theorem Instruction.forall_useViolations {i : Instruction} {site : UseSite} :
    (∀ v ∈ i.useViolations site imports, v.isUse = true) ∧
      ((∀ v ∈ i.useViolations site imports, v.isUse = false) ↔
        ∀ handle ∈ i.usedHandle?, handle ∈ imports) := by
  unfold useViolations
  cases i.usedHandle? with
  | none => simp
  | some handle =>
    by_cases hmem : handle ∈ imports
    · simp [hmem]
    · simp [hmem, Violation.isUse]

namespace Block

variable {b : Block} {function : String} {labels : List Reg}

/-- But for uses, a body is in order if no terminator stands before its end. -/
theorem forall_isUse_bodyViolations :
    (∀ v ∈ b.bodyViolations function imports instrs, v.isUse = true) ↔
      ∀ i ∈ instrs.dropLast, i.isTerminator = false := by
  induction instrs generalizing imports with
  | nil => simp [bodyViolations]
  | cons i instrs ih =>
    rw [bodyViolations, List.forall_mem_append, List.forall_mem_append, ih]
    cases instrs with
    | nil => simpa using Instruction.forall_useViolations.1
    | cons j instrs =>
      rw [List.dropLast_cons_cons, List.forall_mem_cons]
      refine and_congr_left' ?_
      rw [and_iff_left Instruction.forall_useViolations.1]
      cases i.isTerminator <;> simp [Violation.isUse]

/-- The uses in a body are in order if each comes after its import. -/
theorem forall_not_isUse_bodyViolations :
    (∀ v ∈ b.bodyViolations function imports instrs, v.isUse = false) ↔
      ImportsFirst imports instrs := by
  induction instrs generalizing imports with
  | nil => simp [bodyViolations, ImportsFirst]
  | cons i instrs ih =>
    rw [bodyViolations, List.forall_mem_append, List.forall_mem_append, ih, ImportsFirst,
      Instruction.forall_useViolations.2]
    split <;> simp [Violation.isUse]

theorem forall_isUse_violations :
    (∀ v ∈ b.violations function labels imports, v.isUse = true) ↔ b.Sound labels := by
  rw [violations, List.forall_mem_append, List.forall_mem_append, forall_isUse_bodyViolations]
  constructor
  · rintro ⟨⟨hbody, hsealed⟩, htargets⟩
    refine ⟨hbody, ?_, fun target htarget ↦ ?_⟩
    · by_contra hopen
      rw [if_neg hopen] at hsealed
      cases hsealed _ List.mem_cons_self
    · by_contra hlabel
      have hmem : target ∈ b.successors.filter (!labels.contains ·) := by
        simp [htarget, hlabel]
      cases htargets _ (List.mem_map_of_mem hmem)
  · rintro ⟨hbody, hsealed, htargets⟩
    refine ⟨⟨hbody, by simp [hsealed]⟩, ?_⟩
    have hnone : b.successors.filter (!labels.contains ·) = [] := by
      simpa using htargets
    rw [hnone]
    exact List.forall_mem_nil _

theorem forall_not_isUse_violations :
    (∀ v ∈ b.violations function labels imports, v.isUse = false) ↔
      ImportsFirst imports b.instrs := by
  rw [violations, List.forall_mem_append, List.forall_mem_append, forall_not_isUse_bodyViolations,
    and_assoc, and_iff_left_iff_imp]
  intro _
  constructor
  · split <;> simp [Violation.isUse]
  · intro v hv
    obtain ⟨target, -, rfl⟩ := List.mem_map.mp hv
    rfl

end Block

theorem forall_isUse_blockViolations {function : String} {labels : List Reg} {blocks : List Block} :
    (∀ v ∈ blockViolations function labels imports blocks, v.isUse = true) ↔
      ∀ b ∈ blocks, b.Sound labels := by
  induction blocks generalizing imports with
  | nil => simp [blockViolations]
  | cons b blocks ih =>
    rw [blockViolations, List.forall_mem_append, Block.forall_isUse_violations, ih,
      List.forall_mem_cons]

theorem forall_not_isUse_blockViolations {function : String} {labels : List Reg}
    {blocks : List Block} :
    (∀ v ∈ blockViolations function labels imports blocks, v.isUse = false) ↔
      ImportsFirst imports (blocks.flatMap Block.instrs) := by
  induction blocks generalizing imports with
  | nil => simp [blockViolations, ImportsFirst]
  | cons b blocks ih =>
    rw [blockViolations, List.forall_mem_append, Block.forall_not_isUse_violations, ih,
      List.flatMap_cons, importsFirst_append]

def Function.bodyInstructions (f : Function) : List Instruction := f.blocks.flatMap Block.instrs

theorem forall_isUse_functionViolations {functions : List Function} :
    (∀ v ∈ functionViolations imports functions, v.isUse = true) ↔
      ∀ f ∈ functions, ∀ b ∈ f.blocks, b.Sound f.labels := by
  induction functions generalizing imports with
  | nil => simp [functionViolations]
  | cons f functions ih =>
    rw [functionViolations, List.forall_mem_append, forall_isUse_blockViolations, ih,
      List.forall_mem_cons]

theorem forall_not_isUse_functionViolations {functions : List Function} :
    (∀ v ∈ functionViolations imports functions, v.isUse = false) ↔
      ImportsFirst imports (functions.flatMap Function.bodyInstructions) := by
  induction functions generalizing imports with
  | nil => simp [functionViolations, ImportsFirst]
  | cons f functions ih =>
    rw [functionViolations, List.forall_mem_append, forall_not_isUse_blockViolations, ih,
      List.flatMap_cons, importsFirst_append]
    rfl

/-- Of global instructions only the uses can be wrong. -/
theorem forall_globalViolations {index : Nat} :
    (∀ v ∈ globalViolations imports index instrs, v.isUse = true) ∧
      ((∀ v ∈ globalViolations imports index instrs, v.isUse = false) ↔
        ImportsFirst imports instrs) := by
  induction instrs generalizing imports index with
  | nil => simp [globalViolations, ImportsFirst]
  | cons i instrs ih =>
    obtain ⟨hall, hnone⟩ := @ih (importsAfter imports [i]) (index + 1)
    rw [globalViolations, List.forall_mem_append, List.forall_mem_append, ImportsFirst, hnone,
      Instruction.forall_useViolations.2]
    exact ⟨⟨Instruction.forall_useViolations.1, hall⟩, Iff.rfl⟩

namespace Module

variable {m : Module}

def Sound (m : Module) : Prop := ∀ f ∈ m.functions, ∀ b ∈ f.blocks, b.Sound f.labels

def checkedInstructions (m : Module) : List Instruction :=
  m.globals ++ m.functions.flatMap Function.bodyInstructions

theorem forall_isUse_violations : (∀ v ∈ m.violations, v.isUse = true) ↔ m.Sound := by
  rw [violations, List.forall_mem_append, forall_isUse_functionViolations]
  exact and_iff_right forall_globalViolations.1

theorem forall_not_isUse_violations :
    (∀ v ∈ m.violations, v.isUse = false) ↔ ImportsFirst [] m.checkedInstructions := by
  rw [violations, List.forall_mem_append, forall_not_isUse_functionViolations,
    forall_globalViolations.2, checkedInstructions, importsFirst_append]

/-- Nothing is wrong with a module just if its blocks are sound and imports come first. -/
theorem violations_eq_nil :
    m.violations = [] ↔ m.Sound ∧ ImportsFirst [] m.checkedInstructions := by
  rw [← forall_isUse_violations, ← forall_not_isUse_violations]
  constructor
  · intro hnone
    rw [hnone]
    exact ⟨List.forall_mem_nil _, List.forall_mem_nil _⟩
  · rintro ⟨huse, hother⟩
    refine List.eq_nil_iff_forall_not_mem.mpr fun v hv ↦ ?_
    exact Bool.false_ne_true ((hother v hv).symm.trans (huse v hv))

end Module

/-! ## Written imports -/

namespace Registry

variable {registry : Registry} {handle handle' : Reg}

/-- Binding a handle makes it stand for a set, and changes no other. -/
theorem contains_bind (name : String) :
    (registry.bind handle name).contains handle' =
      (handle' == handle || registry.contains handle') := by
  rw [contains, find?_bind, contains]
  by_cases h : handle' = handle <;> simp [h]

/-- The handles that stand for sets are those of the imports. -/
def Holds (registry : Registry) (imports : List Reg) : Prop :=
  ∀ handle, registry.contains handle = true ↔ handle ∈ imports

theorem holds_empty : empty.Holds [] := by
  intro handle
  simp [contains, find?, empty]

end Registry

namespace Supply

variable {i : Instruction} {registry : Registry} {opcode : Opcode}

/-- Where a register is called for, a register is the next operand. -/
theorem fixedOperands_id_eq_ok {kinds : List OperandKind} {index : Nat}
    {values values' : FixedValues} {items rest : List (Operand × Nat)} {fields : List Field}
    (h : (ofInstruction i).fixedOperands registry opcode (.id :: kinds) index values items =
      ⟨fields, .ok (values', rest)⟩) :
    ∃ r position more back, items = (.reg r, position) :: more ∧ fields = .reg r :: back ∧
      (ofInstruction i).fixedOperands registry opcode kinds (index + 1)
        { values with regs := values.regs ++ [r] } more = ⟨back, .ok (values', rest)⟩ := by
  obtain ⟨⟨operand, position⟩, more, field, values₁, back, rfl, rfl, hfield, hmore⟩ :=
    fixedOperands_cons_eq_ok.mp h
  cases hfield with
  | @id r hitem =>
    obtain rfl : operand = .reg r := reg_of_ofInstruction hitem
    exact ⟨r, position, more, back, rfl, rfl, hmore⟩

end Supply

namespace Instruction

variable {i : Instruction} {registry : Registry} {rest : List (Operand × Nat)} {handle : Reg}

theorem importedHandle?_eq_some :
    i.importedHandle? = some handle ↔ i.opcode = .opExtInstImport ∧ i.reg? 0 = some handle := by
  unfold importedHandle?
  split
  · next hopcode => simp [beq_iff_eq.mp hopcode]
  · next hopcode => simp [beq_iff_eq.not.mp hopcode]

/-- An extended instruction uses the set that its third operand names. -/
theorem usedHandle?_eq_some :
    i.usedHandle? = some handle ↔ i.opcode = .opExtInst ∧ i.reg? 2 = some handle := by
  unfold usedHandle?
  split
  · next hopcode => simp [beq_iff_eq.mp hopcode]
  · next hopcode => simp [beq_iff_eq.not.mp hopcode]

/-- An extended instruction that is written uses a set that has been imported. -/
theorem contains_of_usedHandle? (hlaid : (i.layOut registry).result = .ok rest)
    (hhandle : i.usedHandle? = some handle) : registry.contains handle = true := by
  obtain ⟨hopcode, hreg⟩ := usedHandle?_eq_some.mp hhandle
  have hrun : i.layOut registry = ⟨(i.layOut registry).entries, .ok rest⟩ :=
    Transcript.ext rfl hlaid
  generalize (i.layOut registry).entries = fields at hrun
  rw [layOut, hopcode] at hrun
  obtain ⟨front, ⟨values, mid⟩, back, hfixed, -, -⟩ := Transcript.bind_eq_ok.mp hrun
  obtain ⟨first, _, _, _, hitems, -, h₁⟩ := Supply.fixedOperands_id_eq_ok hfixed
  obtain ⟨second, _, _, _, rfl, -, h₂⟩ := Supply.fixedOperands_id_eq_ok h₁
  obtain ⟨third, _, _, _, rfl, -, h₃⟩ := Supply.fixedOperands_id_eq_ok h₂
  obtain ⟨_, _, _, _, _, -, -, hnumber, -⟩ := Supply.fixedOperands_cons_eq_ok.mp h₃
  have hthird : i.reg? 2 = some third := reg?_of_zipIdx hitems rfl
  obtain rfl : third = handle := Option.some.inj (hthird.symm.trans hreg)
  cases hnumber with
  | @extNumber last _ _ hlast hset _ =>
    obtain rfl : third = last := Option.some.inj hlast
    rw [Registry.contains, hset, Option.isSome_some]

/-- The writer and validation take the same instructions for imports of the same handles. -/
theorem map_fst_imported? (hlaid : (i.layOut registry).result = .ok rest) :
    (imported? i.opcode (i.layOut registry).entries).map Prod.fst = i.importedHandle? := by
  by_cases hopcode : i.opcode = .opExtInstImport
  · obtain ⟨handle, hhandle, hentries⟩ := entries_of_import hlaid hopcode
    have hreg : i.reg? 0 = some handle := by rw [reg?, hhandle, Option.bind_some, Operand.reg?]
    rw [hentries, importedHandle?_eq_some.mpr ⟨hopcode, hreg⟩, hopcode]
    rfl
  · rw [importedHandle?, if_neg (beq_iff_eq.not.mpr hopcode), imported?_of_ne hopcode]
    rfl

end Instruction

/-- Once an instruction is written, what it imports stands for a set as well. -/
theorem Registry.Holds.after {i : Instruction} {registry : Registry} {rest : List (Operand × Nat)}
    {imports : List Reg} (h : registry.Holds imports)
    (hlaid : (i.layOut registry).result = .ok rest) :
    (registry.after i.opcode (i.layOut registry).entries).Holds (importsAfter imports [i]) := by
  intro handle
  have himported := Instruction.map_fst_imported? hlaid
  rw [mem_importsAfter, ← h handle, Registry.after]
  cases hset : imported? i.opcode (i.layOut registry).entries with
  | none =>
    rw [hset] at himported
    simp [← himported]
  | some bound =>
    rw [hset] at himported
    simp [Registry.contains_bind, ← himported, or_comm]

namespace Module

variable {m : Module}

/-- Where imports come first, no set is missing when lines are written. -/
theorem cause_ne_unboundSet_of_writeItems {items : List Item} {imports : List Reg}
    {registry : Registry} {out : String} {e : WriteError}
    (hfirst : ImportsFirst imports (items.filterMap Item.instr?)) (hholds : registry.Holds imports)
    (h : (writeItems out registry items).result = .error e) (handle : Reg) :
    e.cause ≠ .unboundSet handle := by
  induction items generalizing imports registry out with
  | nil => cases h
  | cons item items ih =>
    cases item with
    | comment text => exact ih hfirst hholds h
    | instruction site i =>
      obtain ⟨huse, hmore⟩ := hfirst
      simp only [writeItems, Instruction.emit, Transcript.result_bind,
        Transcript.result_putAll] at h
      cases hlaid : (i.layOut registry).result with
      | ok rest =>
        simp only [hlaid] at h
        exact ih hmore (hholds.after hlaid) h
      | error cause =>
        simp only [hlaid] at h
        cases h
        rintro rfl
        obtain ⟨hopcode, hreg, hfind⟩ := Instruction.layOut_eq_unboundSet hlaid
        have hhandle := Instruction.usedHandle?_eq_some.mpr ⟨hopcode, hreg⟩
        have hcontains := (hholds handle).mpr (huse handle hhandle)
        rw [Registry.contains, hfind] at hcontains
        cases hcontains

/-- In lines that are written imports come first. -/
theorem importsFirst_of_writeItems {items : List Item} {imports : List Reg} {registry : Registry}
    {out : String} {written : String × Registry} (hholds : registry.Holds imports)
    (h : (writeItems out registry items).result = .ok written) :
    ImportsFirst imports (items.filterMap Item.instr?) := by
  induction items generalizing imports registry out with
  | nil => trivial
  | cons item items ih =>
    cases item with
    | comment text => exact ih hholds h
    | instruction site i =>
      simp only [writeItems, Instruction.emit, Transcript.result_bind,
        Transcript.result_putAll] at h
      cases hlaid : (i.layOut registry).result with
      | ok rest =>
        simp only [hlaid] at h
        refine ⟨fun handle hhandle ↦ ?_, ih (hholds.after hlaid) h⟩
        exact (hholds handle).mp (Instruction.contains_of_usedHandle? hlaid hhandle)
      | error cause =>
        simp only [hlaid] at h
        cases h

/-- A module whose functions have the headers and parameters that they should. -/
def WellHeaded (m : Module) : Prop :=
  ∀ f ∈ m.functions, f.header.opcode = .opFunction ∧
    ∀ i ∈ f.params, i.opcode = .opFunctionParameter

/-- Validation looks at all instructions that concern sets, if headers and parameters are what they
should be. -/
theorem filter_instructions (h : m.WellHeaded) :
    m.instructions.filter Instruction.concernsSets =
      m.checkedInstructions.filter Instruction.concernsSets := by
  have hfunction : ∀ f ∈ m.functions, f.instructions.filter Instruction.concernsSets =
      f.bodyInstructions.filter Instruction.concernsSets := by
    intro f hf
    obtain ⟨hheader, hparams⟩ := h f hf
    have hparams' : f.params.filter Instruction.concernsSets = [] := by
      refine List.filter_eq_nil_iff.mpr fun i hi ↦ ?_
      rw [Instruction.concernsSets, hparams i hi]
      decide
    have hheader' : f.header.concernsSets = false := by
      rw [Instruction.concernsSets, hheader]
      rfl
    have hblock : ∀ b : Block, b.instructions.filter Instruction.concernsSets =
        b.instrs.filter Instruction.concernsSets :=
      fun b ↦ List.filter_cons_of_neg Bool.false_ne_true
    simp only [Function.instructions, Function.openInstructions, Function.bodyInstructions,
      List.cons_append, List.filter_cons_of_neg (Bool.eq_false_iff.mp hheader'), List.filter_append,
      hparams', List.filter_flatMap, hblock, List.nil_append]
    exact List.append_nil _
  rw [instructions, checkedInstructions, List.filter_append, List.filter_append,
    List.filter_flatMap, List.filter_flatMap]
  congr 1
  exact List.flatMap_congr hfunction

/-- A module that is valid is never refused for want of a set. -/
theorem cause_ne_unboundSet (hheaded : m.WellHeaded) (hvalid : m.violations = [])
    {comments : Bool} {e : WriteError} (h : (m.write comments).result = .error e) (handle : Reg) :
    e.cause ≠ .unboundSet handle := by
  obtain ⟨-, hfirst⟩ := violations_eq_nil.mp hvalid
  rw [← importsFirst_filter, ← filter_instructions hheaded, importsFirst_filter,
    ← m.filterMap_items comments] at hfirst
  have hitems : (writeItems "" .empty (m.items comments)).result = .error e := by
    rw [write, Transcript.bind_eq_error] at h
    rcases h with h | ⟨_, _, -, h⟩
    · exact h
    · cases h
  exact cause_ne_unboundSet_of_writeItems hfirst Registry.holds_empty hitems handle

/-- In a module that is written no set is used before it is imported. -/
theorem forall_not_isUse_of_write (hheaded : m.WellHeaded) {comments : Bool} {text : String}
    (h : (m.write comments).result = .ok text) : ∀ v ∈ m.violations, v.isUse = false := by
  obtain ⟨registry, hitems⟩ := write_eq_ok.mp h
  have hfirst := importsFirst_of_writeItems Registry.holds_empty hitems
  rw [m.filterMap_items comments, ← importsFirst_filter, filter_instructions hheaded,
    importsFirst_filter] at hfirst
  exact forall_not_isUse_violations.mpr hfirst

end Module

end SpirvText
