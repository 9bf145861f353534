import SpirvText.Proofs.Module.Imports
import SpirvText.Proofs.Pipeline.Idempotence

/-!
# Validity after the passes

A module is checked before its blocks are put in order.  That its blocks are sound does not depend
on their order; that imports come before uses does.  It stays so if no block is moved in front of
one that imports a set it uses, but for sets that are imported before the function
(`Options.importsFirst_map_order`), and only if so where no set is imported twice in a function
(`Options.keepsImportsFrom_of_importsFirst`).  Of a module that can be written, on the other hand,
only the blocks are left to check (`Module.forall_not_isUse_of_write`).
-/

namespace SpirvText

/-! ## Imports in another order -/

/-- Imports come first in lists of instructions that stand one after the other if they do in each
list, after those before it. -/
theorem importsFirst_flatMap {α : Type} {instrs : α → List Instruction} {parts : List α}
    {imports : List Reg} :
    ImportsFirst imports (parts.flatMap instrs) ↔ ∀ front x back, parts = front ++ x :: back →
      ImportsFirst (importsAfter imports (front.flatMap instrs)) (instrs x) := by
  constructor
  · rintro h front x back rfl
    rw [List.flatMap_append, List.flatMap_cons, importsFirst_append, importsFirst_append] at h
    exact h.2.1
  · intro h
    induction parts generalizing imports with
    | nil => trivial
    | cons y parts ih =>
      rw [List.flatMap_cons, importsFirst_append]
      constructor
      · have hy := h [] y parts rfl
        rwa [List.flatMap_nil, importsAfter, List.filterMap_nil, List.append_nil] at hy
      · refine ih fun front x back hparts ↦ ?_
        rw [← importsAfter_append, ← List.flatMap_cons]
        exact h (y :: front) x back (by rw [hparts, List.cons_append])

/-- More imports do no harm. -/
theorem ImportsFirst.of_subset {imports imports' : List Reg} {instrs : List Instruction}
    (h : ImportsFirst imports instrs) (hsub : imports ⊆ imports') : ImportsFirst imports' instrs :=
  h.mono fun _ _ hmem ↦ hsub hmem

/-- More instructions import more. -/
theorem importsAfter_subset {imports imports' : List Reg} {instrs instrs' : List Instruction}
    (himports : imports ⊆ imports') (hinstrs : instrs ⊆ instrs') :
    importsAfter imports instrs ⊆ importsAfter imports' instrs' := by
  intro handle hhandle
  rcases mem_importsAfter.mp hhandle with hold | hnew
  · exact mem_importsAfter.mpr (.inl (himports hold))
  · obtain ⟨i, hi, hi'⟩ := List.mem_filterMap.mp hnew
    exact mem_importsAfter.mpr (.inr (List.mem_filterMap.mpr ⟨i, hinstrs hi, hi'⟩))

namespace Function

variable {f : Function} {known imports : List Reg}

/-- The blocks of a function in the order of dominance, with their old positions. -/
def arrangedBlocks (f : Function) (dominates : Reg → Reg → Bool) : List (Block × Nat) :=
  (f.linearOrder dominates).filterMap fun i ↦ f.blocks[i]?.map (·, i)

theorem perm_arrangedBlocks (f : Function) (dominates : Reg → Reg → Bool) :
    (f.arrangedBlocks dominates).Perm f.blocks.zipIdx := by
  have hzip := BlockOrder.filterMap_range f.blocks.zipIdx
  simp only [List.length_zipIdx, List.getElem?_zipIdx, Nat.zero_add] at hzip
  rw [← hzip]
  exact (f.perm_linearOrder dominates).filterMap _

/-- A function of which no block is moved in front of one that imports a set it uses, but for sets
that are `known` before, when its blocks are put in order. -/
def KeepsImports (known : List Reg) (f : Function) : Prop :=
  (f.arrangedBlocks f.dominatorTree.dominates).Pairwise fun x y ↦ y.2 < x.2 →
    ∀ handle ∈ y.1.instrs.filterMap Instruction.importedHandle?,
      handle ∈ known ∨ handle ∉ x.1.instrs.filterMap Instruction.usedHandle?

theorem bodyInstructions_eq_flatMap (f : Function) :
    f.bodyInstructions = f.blocks.zipIdx.flatMap (·.1.instrs) := by
  conv_lhs => rw [bodyInstructions, ← List.zipIdx_map_fst 0 f.blocks, List.flatMap_map]

theorem bodyInstructions_orderBlocks (f : Function) : f.orderBlocks.1.bodyInstructions =
    (f.arrangedBlocks f.dominatorTree.dominates).flatMap (·.1.instrs) := by
  have hblocks : f.orderBlocks.1.blocks =
      (f.arrangedBlocks f.dominatorTree.dominates).map (·.1) := by
    rw [orderBlocks, linearize_fst, arrangedBlocks, List.map_filterMap]
    refine List.filterMap_congr fun i _ ↦ ?_
    rw [Option.map_map]
    exact Option.map_id'.symm
  rw [bodyInstructions, hblocks, List.flatMap_map]

/-- If no block is moved in front of an import that it needs, imports still come first. -/
theorem importsFirst_orderBlocks (hkeeps : f.KeepsImports known) (hknown : known ⊆ imports)
    (h : ImportsFirst imports f.bodyInstructions) :
    ImportsFirst imports f.orderBlocks.1.bodyInstructions := by
  have hpositions : f.blocks.zipIdx.Pairwise fun x y ↦ x.2 < y.2 := by
    rw [← List.pairwise_map, List.zipIdx_map_snd]
    exact List.pairwise_lt_range'
  have hperm := f.perm_arrangedBlocks f.dominatorTree.dominates
  rw [bodyInstructions_eq_flatMap, importsFirst_flatMap] at h
  rw [bodyInstructions_orderBlocks, importsFirst_flatMap]
  intro front x back harranged
  rw [KeepsImports, harranged] at hkeeps
  rw [harranged] at hperm
  obtain ⟨before, after, hblocks⟩ :=
    List.append_of_mem (hperm.mem_iff.mp (List.mem_append_right front List.mem_cons_self))
  refine (h before x after hblocks).mono fun handle hused hmem ↦ ?_
  by_cases hold : handle ∈ imports
  · exact mem_importsAfter.mpr (.inl hold)
  have hnew := (mem_importsAfter.mp hmem).resolve_left hold
  obtain ⟨i, hi, hhandle⟩ := List.mem_filterMap.mp hnew
  obtain ⟨y, hy, hi⟩ := List.mem_flatMap.mp hi
  rw [hblocks] at hpositions hperm
  have hlt : y.2 < x.2 := (List.pairwise_append.mp hpositions).2.2 y hy x List.mem_cons_self
  have hfront : y ∈ front := by
    rcases List.mem_append.mp (hperm.mem_iff.mpr (List.mem_append_left _ hy)) with hfront | hback
    · exact hfront
    · rcases List.mem_cons.mp hback with rfl | hback
      · exact absurd hlt (Nat.lt_irrefl _)
      · have hpair := (List.pairwise_cons.mp (List.pairwise_append.mp hkeeps).2.1).1 y hback
        rcases hpair hlt handle (List.mem_filterMap.mpr ⟨i, hi, hhandle⟩) with hmem | hunused
        · exact absurd (hknown hmem) hold
        · exact absurd hused hunused
  refine mem_importsAfter.mpr (.inr (List.mem_filterMap.mpr ⟨i, ?_, hhandle⟩))
  exact List.mem_flatMap.mpr ⟨y, hfront, hi⟩

/-- Blocks one after the other, in which no handle is imported twice, import no set after a use. -/
theorem pairwise_of_importsFirst {parts : List (Block × Nat)}
    (h : ImportsFirst imports (parts.flatMap (·.1.instrs)))
    (hnodup : ((parts.flatMap (·.1.instrs)).filterMap Instruction.importedHandle?).Nodup) :
    parts.Pairwise fun x y ↦ ∀ handle ∈ y.1.instrs.filterMap Instruction.importedHandle?,
      handle ∈ imports ∨ handle ∉ x.1.instrs.filterMap Instruction.usedHandle? := by
  induction parts generalizing imports with
  | nil => exact .nil
  | cons x parts ih =>
    rw [List.flatMap_cons, importsFirst_append] at h
    rw [List.flatMap_cons, List.filterMap_append, List.nodup_append] at hnodup
    obtain ⟨hx, hparts⟩ := h
    obtain ⟨-, hnodup, hdisjoint⟩ := hnodup
    have hold : ∀ y ∈ parts, ∀ handle ∈ y.1.instrs.filterMap Instruction.importedHandle?,
        handle ∈ importsAfter imports x.1.instrs → handle ∈ imports := by
      intro y hy handle hhandle hmem
      refine (mem_importsAfter.mp hmem).resolve_right fun hx ↦ ?_
      rw [List.filterMap_flatMap] at hdisjoint
      exact hdisjoint handle hx handle (List.mem_flatMap.mpr ⟨y, hy, hhandle⟩) rfl
    refine List.pairwise_cons.mpr ⟨fun y hy handle hhandle ↦ ?_, ?_⟩
    · by_cases hused : handle ∈ x.1.instrs.filterMap Instruction.usedHandle?
      · exact .inl (hold y hy handle hhandle (hx.mem_of_used hused))
      · exact .inr hused
    · refine (ih hparts hnodup).imp_of_mem fun _ hy hpair handle hhandle ↦ ?_
      exact (hpair handle hhandle).imp_left (hold _ hy handle hhandle)

/-- If imports still come first, no block was moved in front of one that it needs. -/
theorem keepsImports_of_importsFirst (hknown : imports ⊆ known)
    (h : ImportsFirst imports f.orderBlocks.1.bodyInstructions)
    (hnodup : (f.bodyInstructions.filterMap Instruction.importedHandle?).Nodup) :
    f.KeepsImports known := by
  rw [bodyInstructions_orderBlocks] at h
  have hperm := (f.perm_arrangedBlocks f.dominatorTree.dominates).flatMap_right (·.1.instrs)
  rw [bodyInstructions_eq_flatMap] at hnodup
  have hpairwise := pairwise_of_importsFirst h ((hperm.filterMap _).nodup_iff.mpr hnodup)
  exact hpairwise.imp fun hpair _ handle hhandle ↦ (hpair handle hhandle).imp_left (hknown ·)

/-- Functions that keep imports one after the other, each after those before it. -/
def KeepsImportsFrom (known : List Reg) : List Function → Prop
  | [] => True
  | f :: functions =>
    f.KeepsImports known ∧ KeepsImportsFrom (importsAfter known f.bodyInstructions) functions

end Function

/-- A module whose functions keep imports when their blocks are put in order. -/
def Module.KeepsImports (m : Module) : Prop :=
  Function.KeepsImportsFrom (importsAfter [] m.globals) m.functions

namespace Options

variable {options : Options} {m : Module}

theorem perm_bodyInstructions_order (f : Function) :
    (options.order f).bodyInstructions.Perm f.bodyInstructions :=
  (options.rearranges_order f).blocks.flatMap_right _

theorem order_eq (hsort : options.sortBlocks = true) (f : Function) :
    options.order f = f.orderBlocks.1 :=
  if_pos hsort

theorem importsFirst_map_order (hsort : options.sortBlocks = true) {functions : List Function}
    {known imports : List Reg} (hkeeps : Function.KeepsImportsFrom known functions)
    (hknown : known ⊆ imports)
    (h : ImportsFirst imports (functions.flatMap Function.bodyInstructions)) :
    ImportsFirst imports ((functions.map options.order).flatMap Function.bodyInstructions) := by
  induction functions generalizing known imports with
  | nil => trivial
  | cons f functions ih =>
    obtain ⟨hf, hkeeps⟩ := hkeeps
    rw [List.flatMap_cons, importsFirst_append] at h
    rw [List.map_cons, List.flatMap_cons, importsFirst_append]
    constructor
    · rw [order_eq hsort]
      exact Function.importsFirst_orderBlocks hf hknown h.1
    · have hmore := ih hkeeps (importsAfter_subset hknown (List.Subset.refl _)) h.2
      exact hmore.of_subset
        (importsAfter_subset (List.Subset.refl _) (perm_bodyInstructions_order f).symm.subset)

theorem keepsImportsFrom_of_importsFirst (hsort : options.sortBlocks = true)
    {functions : List Function} {known imports : List Reg} (hknown : imports ⊆ known)
    (hnodup : ∀ f ∈ functions, (f.bodyInstructions.filterMap Instruction.importedHandle?).Nodup)
    (h : ImportsFirst imports
      ((functions.map options.order).flatMap Function.bodyInstructions)) :
    Function.KeepsImportsFrom known functions := by
  induction functions generalizing known imports with
  | nil => trivial
  | cons f functions ih =>
    obtain ⟨hf, hnodup⟩ := List.forall_mem_cons.mp hnodup
    rw [List.map_cons, List.flatMap_cons, importsFirst_append] at h
    constructor
    · rw [order_eq hsort] at h
      exact Function.keepsImports_of_importsFirst hknown h.1 hf
    · exact ih (importsAfter_subset hknown (perm_bodyInstructions_order f).subset) hnodup h.2

/-- Blocks stay sound when they are put in order. -/
theorem sound_orderModule (h : m.Sound) : (options.orderModule m).Sound := by
  intro g hg b hb
  obtain ⟨f, hf, rfl⟩ := List.mem_map.mp hg
  have horder := options.rearranges_order f
  exact (h f hf b (horder.blocks.mem_iff.mp hb)).congr fun r hr ↦ horder.perm_labels.mem_iff.mpr hr

theorem wellHeaded_orderModule (h : m.WellHeaded) : (options.orderModule m).WellHeaded := by
  intro g hg
  obtain ⟨f, hf, rfl⟩ := List.mem_map.mp hg
  rw [(options.rearranges_order f).header, (options.rearranges_order f).params]
  exact h f hf

end Options

/-! ## Passes -/

theorem Module.validate_eq_ok {m : Module} : m.validate = .ok () ↔ m.violations = [] := by
  unfold validate
  cases m.violations <;> simp

/-- Once the passes have gone through, nothing is wrong with the module but that a set may be used
before it is imported.  If no block is moved in front of one that imports a set it uses, but for
sets that are imported before the function, nothing is wrong at all, and no set is missing when the
module is written.  Where no function imports a set twice, that is needed too. -/
theorem runPasses_keeps_validity {m : Module} {options : Options} {dumpAfter : Option String}
    (hheaded : m.WellHeaded) (hvalidate : options.validate = true)
    (hsort : options.sortBlocks = true)
    (hrun : (runPasses dumpAfter options.passes m).failure? = none) :
    (∀ v ∈ (runPasses dumpAfter options.passes m).result.violations, v.isUse = true) ∧
      (m.KeepsImports →
        (runPasses dumpAfter options.passes m).result.validate = .ok () ∧
          ∀ comments e handle,
            ((runPasses dumpAfter options.passes m).result.write comments).result = .error e →
              e.cause ≠ .unboundSet handle) ∧
      ((∀ f ∈ m.functions, (f.bodyInstructions.filterMap Instruction.importedHandle?).Nodup) →
        (runPasses dumpAfter options.passes m).result.validate = .ok () → m.KeepsImports) := by
  have hviolations := violations_of_runPasses hrun hvalidate
  obtain ⟨hsound, hfirst⟩ := Module.violations_eq_nil.mp hviolations
  rw [(runPasses_of_violations dumpAfter fun _ ↦ hviolations).2]
  refine ⟨Module.forall_isUse_violations.mpr (Options.sound_orderModule hsound), fun hkeeps ↦ ?_,
    fun hnodup hvalid ↦ ?_⟩
  · have hvalid : (options.orderModule m).violations = [] := by
      refine Module.violations_eq_nil.mpr ⟨Options.sound_orderModule hsound, ?_⟩
      obtain ⟨hglobals, hfunctions⟩ := importsFirst_append.mp hfirst
      exact importsFirst_append.mpr ⟨hglobals,
        Options.importsFirst_map_order hsort hkeeps (List.Subset.refl _) hfunctions⟩
    exact ⟨Module.validate_eq_ok.mpr hvalid, fun comments e handle he ↦
      Module.cause_ne_unboundSet (Options.wellHeaded_orderModule hheaded) hvalid he handle⟩
  · obtain ⟨-, hfirst'⟩ := Module.violations_eq_nil.mp (Module.validate_eq_ok.mp hvalid)
    exact Options.keepsImportsFrom_of_importsFirst hsort (List.Subset.refl _) hnodup
      (importsFirst_append.mp hfirst').2

/-- A function in which the last block, which imports a set and uses it, is moved in front of the
second. -/
def importMoved : Module where
  name := "import moved"
  functions := [
    { header := ⟨.opFunction, [.reg ⟨0⟩, .reg ⟨1⟩, .imm 0, .reg ⟨0⟩], .integer⟩
      blocks := [
        ⟨⟨2⟩, [⟨.opBranch, [.reg ⟨4⟩], .integer⟩]⟩,
        ⟨⟨3⟩, [⟨.opReturn, [], .integer⟩]⟩,
        ⟨⟨4⟩, [⟨.opExtInstImport, .reg ⟨5⟩ :: StringWords.operands "OpenCL.std", .integer⟩,
          ⟨.opExtInst, [.reg ⟨0⟩, .reg ⟨6⟩, .reg ⟨5⟩, .imm 23, .reg ⟨7⟩], .integer⟩,
          ⟨.opBranch, [.reg ⟨3⟩], .integer⟩]⟩] }]

/-- The import of `importMoved` moves with its use, and the module stays valid. -/
theorem runPasses_keeps_validity_importMoved :
    (runPasses none ({} : Options).passes importMoved).changed = true ∧
      (runPasses none ({} : Options).passes importMoved).result.validate = .ok () ∧
      ∀ comments e handle,
        ((runPasses none ({} : Options).passes importMoved).result.write comments).result =
          .error e → e.cause ≠ .unboundSet handle := by
  have hheaded : importMoved.WellHeaded := by
    unfold Module.WellHeaded
    decide
  have hkeeps : importMoved.KeepsImports := by
    refine ⟨?_, trivial⟩
    unfold Function.KeepsImports
    decide +kernel
  have hrun : (runPasses none ({} : Options).passes importMoved).failure? = none := by
    decide +kernel
  obtain ⟨hvalid, hwrite⟩ := (runPasses_keeps_validity hheaded rfl rfl hrun).2.1 hkeeps
  exact ⟨by decide +kernel, hvalid, hwrite⟩

/-- A function in which the last block, which uses a set, is moved in front of the second, which
imports it. -/
def useMoved : Module where
  name := "use moved"
  functions := [
    { header := ⟨.opFunction, [.reg ⟨0⟩, .reg ⟨1⟩, .imm 0, .reg ⟨0⟩], .integer⟩
      blocks := [
        ⟨⟨2⟩, [⟨.opBranch, [.reg ⟨4⟩], .integer⟩]⟩,
        ⟨⟨3⟩, [⟨.opExtInstImport, .reg ⟨5⟩ :: StringWords.operands "OpenCL.std", .integer⟩,
          ⟨.opReturn, [], .integer⟩]⟩,
        ⟨⟨4⟩, [⟨.opExtInst, [.reg ⟨0⟩, .reg ⟨6⟩, .reg ⟨5⟩, .imm 23, .reg ⟨7⟩], .integer⟩,
          ⟨.opBranch, [.reg ⟨3⟩], .integer⟩]⟩] }]

/-- Passes can go through and leave a module that they would refuse, and that cannot be written. -/
theorem not_valid_useMoved :
    (runPasses none ({} : Options).passes useMoved).failure? = none ∧
      (runPasses none ({} : Options).passes useMoved).result.validate =
        .error (.useBeforeImport (.body "%2" ⟨4⟩) ⟨5⟩) ∧
      ((runPasses none ({} : Options).passes useMoved).result.write false).result =
        .error ⟨.body "%2" ⟨4⟩ 0 .opExtInst, .unboundSet ⟨5⟩⟩ := by
  refine ⟨?_, ?_, ?_⟩ <;> decide +kernel

/-! ## What is written -/

theorem Pass.run_validate_eq_ok {m : Module} {accepted : Module × Bool} :
    (Pass.validate.run m).result = .ok accepted ↔ m.violations = [] ∧ accepted = (m, false) := by
  cases hviolations : m.violations with
  | nil =>
    rw [result_run_validate hviolations, Except.ok.injEq, eq_comm]
    exact (and_iff_right rfl).symm
  | cons v more =>
    rw [result_run_validate_of_cons hviolations]
    constructor
    · intro h
      cases h
    · rintro ⟨⟨⟩, -⟩

theorem Pass.mem_violations_of_run_validate {m : Module} {v : Violation}
    (h : (Pass.validate.run m).result = .error v) : v ∈ m.violations := by
  cases hviolations : m.violations with
  | nil =>
    rw [result_run_validate hviolations] at h
    cases h
  | cons first more =>
    rw [result_run_validate_of_cons hviolations] at h
    cases h
    exact List.mem_cons_self

/-- No set is missing when a module that was accepted is written.  A module that can be written
uses no set before it is imported, and is accepted just if its blocks are sound. -/
theorem Module.validation_agrees_with_writing {m : Module} (hheaded : m.WellHeaded)
    (comments : Bool) :
    (∀ accepted, (Pass.validate.run m).result = .ok accepted →
      ∀ e handle, (m.write comments).result = .error e → e.cause ≠ .unboundSet handle) ∧
    ∀ text, (m.write comments).result = .ok text →
      (∀ site handle, (Pass.validate.run m).result ≠ .error (.useBeforeImport site handle)) ∧
        ((∃ accepted, (Pass.validate.run m).result = .ok accepted) ↔ m.Sound) := by
  constructor
  · intro accepted haccepted e handle he
    obtain ⟨hvalid, -⟩ := Pass.run_validate_eq_ok.mp haccepted
    exact cause_ne_unboundSet hheaded hvalid he handle
  · intro text htext
    have hnoUse := forall_not_isUse_of_write hheaded htext
    constructor
    · intro site handle hrefused
      cases hnoUse _ (Pass.mem_violations_of_run_validate hrefused)
    · constructor
      · rintro ⟨accepted, haccepted⟩
        exact (violations_eq_nil.mp (Pass.run_validate_eq_ok.mp haccepted).1).1
      · intro hsound
        have hvalid := violations_eq_nil.mpr ⟨hsound, forall_not_isUse_violations.mp hnoUse⟩
        exact ⟨(m, false), Pass.run_validate_eq_ok.mpr ⟨hvalid, rfl⟩⟩

theorem Module.validation_agrees_with_writing_importMoved :
    importMoved.WellHeaded ∧ importMoved.Sound ∧
      (∀ e handle, (importMoved.write true).result = .error e → e.cause ≠ .unboundSet handle) ∧
      ∀ site handle,
        (Pass.validate.run importMoved).result ≠ .error (.useBeforeImport site handle) := by
  have hheaded : importMoved.WellHeaded := by
    unfold WellHeaded
    decide
  have haccepted : (Pass.validate.run importMoved).result = .ok (importMoved, false) := by
    decide +kernel
  obtain ⟨text, htext⟩ : ∃ text, (importMoved.write true).result = .ok text := by
    cases h : (importMoved.write true).result with
    | ok text => exact ⟨text, rfl⟩
    | error e =>
      have hok : (importMoved.write true).result.isOk = true := by decide +kernel
      rw [h] at hok
      cases hok
  obtain ⟨hwrite, hagrees⟩ := validation_agrees_with_writing hheaded true
  obtain ⟨hnoUse, hsound⟩ := hagrees text htext
  exact ⟨hheaded, hsound.mp ⟨_, haccepted⟩, hwrite _ haccepted, hnoUse⟩

end SpirvText
