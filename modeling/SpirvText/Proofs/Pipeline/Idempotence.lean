import SpirvText.Pipeline
import SpirvText.Proofs.Flow.BlockOrder
import SpirvText.Proofs.Module.RoundTrip

/-!
# Normalizing twice

What is written for a normalized module is normalized already.  It is read as the module with its
blocks in their new order; there is nothing to object to in this module if there was not before, and
its blocks are in order.
-/

namespace SpirvText

/-! ## Blocks in another order -/

namespace Function

variable {f g : Function}

/-- The same function with its blocks in some order. -/
structure Rearranges (f g : Function) : Prop where
  header : g.header = f.header
  params : g.params = f.params
  name : g.name = f.name
  blocks : g.blocks.Perm f.blocks

theorem Rearranges.result? (h : f.Rearranges g) : g.result? = f.result? := by
  rw [Function.result?, Function.result?, h.header]

theorem Rearranges.displayName (h : f.Rearranges g) : g.displayName = f.displayName := by
  rw [Function.displayName, Function.displayName, h.name, h.result?]

theorem Rearranges.perm_labels (h : f.Rearranges g) : g.labels.Perm f.labels :=
  h.blocks.map Block.label

/-- Instructions stay in their places when blocks are put in another order. -/
theorem Rearranges.wellPlaced (h : f.Rearranges g) (hf : f.WellPlaced) : g.WellPlaced where
  header := h.header ▸ hf.header
  params := h.params ▸ hf.params
  body b hb := hf.body b (h.blocks.mem_iff.mp hb)

theorem Rearranges.perm_instructions (h : f.Rearranges g) : g.instructions.Perm f.instructions := by
  rw [instructions, instructions, openInstructions, openInstructions, h.header, h.params]
  exact ((h.blocks.flatMap_right _).append_left _).append_right _

end Function

namespace Options

/-- A function as it is written: with its blocks in order if options ask for it. -/
def order (options : Options) (f : Function) : Function :=
  if options.sortBlocks then f.orderBlocks.1 else f

def orderModule (options : Options) (m : Module) : Module :=
  { m with functions := m.functions.map options.order }

variable (options : Options)

/-- Options only put the blocks of a function in another order. -/
theorem rearranges_order (f : Function) : f.Rearranges (options.order f) := by
  unfold order
  split
  · have hperm := f.perm_blocks_orderBlocks
    rw [Function.orderBlocks, Function.linearize_fst] at hperm ⊢
    exact ⟨rfl, rfl, rfl, hperm⟩
  · exact ⟨rfl, rfl, rfl, .refl _⟩

/-- Putting blocks in order a second time changes nothing. -/
theorem order_order {f : Function} (h : f.labels.Nodup) :
    options.order (options.order f) = options.order f := by
  unfold order
  split
  · rw [Function.orderBlocks_orderBlocks h]
  · rfl

theorem orderModule_orderModule {m : Module} (h : ∀ f ∈ m.functions, f.labels.Nodup) :
    options.orderModule (options.orderModule m) = options.orderModule m := by
  simp only [orderModule, List.map_map]
  exact congrArg (fun functions ↦ { m with functions := functions })
    (List.map_congr_left fun f hf ↦ options.order_order (h f hf))

end Options

/-! ## Passes -/

section Passes

variable {options : Options} {dumpAfter : Option String} {m : Module}

theorem Pass.result_run_validate (h : m.violations = []) :
    (Pass.validate.run m).result = .ok (m, false) := by
  simp only [run, Module.validate, h]
  rfl

theorem Pass.result_run_validate_of_cons {v : Violation} {more : List Violation}
    (h : m.violations = v :: more) : (Pass.validate.run m).result = .error v := by
  simp only [run, Module.validate, h]
  rfl

/-- Ordering goes through, and leaves the blocks in order. -/
theorem runPasses_sortBlocks :
    (runPasses dumpAfter (if options.sortBlocks then [.blockOrder] else []) m).failure? = none ∧
      (runPasses dumpAfter (if options.sortBlocks then [.blockOrder] else []) m).result =
        options.orderModule m := by
  unfold Options.orderModule Options.order
  cases options.sortBlocks with
  | false => exact ⟨rfl, by simp [runPasses]⟩
  | true =>
    refine ⟨rfl, ?_⟩
    show m.orderBlocks.1 = _
    simp [Module.orderBlocks]

/-- All passes go through if nothing is wrong with the module or it is not checked. -/
theorem runPasses_of_violations (dumpAfter : Option String)
    (h : options.validate = true → m.violations = []) :
    (runPasses dumpAfter options.passes m).failure? = none ∧
      (runPasses dumpAfter options.passes m).result = options.orderModule m := by
  unfold Options.passes
  cases hvalidate : options.validate with
  | false => exact runPasses_sortBlocks
  | true =>
    have hrun := Pass.result_run_validate (h hvalidate)
    simp only [if_true, List.singleton_append, runPasses, hrun]
    exact runPasses_sortBlocks

/-- If passes with validation come to their end, nothing is wrong with the module. -/
theorem violations_of_runPasses (h : (runPasses dumpAfter options.passes m).failure? = none)
    (hvalidate : options.validate = true) : m.violations = [] := by
  cases hviolations : m.violations with
  | nil => rfl
  | cons violation more =>
    have hrun := Pass.result_run_validate_of_cons hviolations
    simp only [Options.passes, hvalidate, if_true, List.singleton_append, runPasses, hrun] at h
    cases h

end Passes

/-- A source is normalized if it is read, nothing is wrong with it, and it can be written. -/
theorem normalize_eq_ok {source name text : String} {options : Options}
    {dumpAfter : Option String} :
    (normalize source name .assembly options dumpAfter).result = .ok text ↔
      ∃ m, (Module.read source name).result = .ok m ∧
        (options.validate = true → m.violations = []) ∧
        ((options.orderModule m).write options.comments).result = .ok text := by
  simp only [normalize, Transcript.result_bind, bind_eq_ok]
  constructor
  · rintro ⟨m, hread, -, -, hwrite⟩
    have hm : (Module.read source name).result = .ok m := mapError_eq_ok.mp hread
    cases hfailure : (runPasses dumpAfter options.passes m).failure? with
    | some failure =>
      simp only [hfailure] at hwrite
      cases hwrite
    | none =>
      simp only [hfailure] at hwrite
      have hviolations := violations_of_runPasses hfailure
      rw [(runPasses_of_violations dumpAfter hviolations).2] at hwrite
      exact ⟨m, hm, hviolations, mapError_eq_ok.mp hwrite⟩
  · rintro ⟨m, hread, hviolations, hwrite⟩
    obtain ⟨hfailure, hresult⟩ := runPasses_of_violations dumpAfter hviolations
    refine ⟨m, mapError_eq_ok.mpr hread, (), rfl, ?_⟩
    simp only [hfailure, hresult]
    exact mapError_eq_ok.mpr hwrite

/-! ## Violations -/

/-- An instruction after which the same sets are imported and the same types declared. -/
def Instruction.KeepsContext (i : Instruction) : Prop :=
  i.opcode ≠ .opExtInstImport ∧ i.opcode ≠ .opTypeInt ∧ i.opcode ≠ .opTypeFloat

/-- A function in whose body nothing is imported and no numeric type declared. -/
def Function.KeepsContext (f : Function) : Prop :=
  ∀ b ∈ f.blocks, ∀ i ∈ b.instrs, i.KeepsContext

theorem importsAfter_eq_self {imports : List Reg} {instrs : List Instruction}
    (h : ∀ i ∈ instrs, i.KeepsContext) : importsAfter imports instrs = imports := by
  have hnone : instrs.filterMap Instruction.importedHandle? = [] := by
    refine List.filterMap_eq_nil_iff.mpr fun i hi ↦ ?_
    rw [Instruction.importedHandle?, if_neg (by simpa using (h i hi).1)]
  rw [importsAfter, hnone, List.append_nil]

theorem blockViolations_eq_nil {function : String} {labels imports : List Reg}
    {blocks : List Block} (h : ∀ b ∈ blocks, ∀ i ∈ b.instrs, i.KeepsContext) :
    blockViolations function labels imports blocks = [] ↔
      ∀ b ∈ blocks, b.violations function labels imports = [] := by
  induction blocks with
  | nil => simp [blockViolations]
  | cons b blocks ih =>
    rw [blockViolations, importsAfter_eq_self (h b List.mem_cons_self), List.append_eq_nil_iff,
      ih fun c hc ↦ h c (List.mem_cons_of_mem _ hc), List.forall_mem_cons]

/-- The order of the labels does not matter to what is wrong with a block. -/
theorem Block.violations_congr {b : Block} {function : String} {labels labels' : List Reg}
    (h : labels'.Perm labels) (imports : List Reg) :
    b.violations function labels' imports = b.violations function labels imports := by
  have hcontains : ∀ r, labels'.contains r = labels.contains r := fun r ↦ by
    rw [Bool.eq_iff_iff, List.contains_iff_mem, List.contains_iff_mem, h.mem_iff]
  simp only [violations, hcontains]

/-- Nothing comes to be wrong with functions when their blocks are put in order. -/
theorem functionViolations_map_order (options : Options) {functions : List Function}
    {imports : List Reg} (hkeeps : ∀ f ∈ functions, f.KeepsContext)
    (h : functionViolations imports functions = []) :
    functionViolations imports (functions.map options.order) = [] := by
  induction functions with
  | nil => rfl
  | cons f functions ih =>
    have hf := hkeeps f List.mem_cons_self
    have horder := options.rearranges_order f
    have hbody : ∀ i ∈ f.blocks.flatMap Block.instrs, i.KeepsContext := by
      intro i hi
      obtain ⟨b, hb, hi⟩ := List.mem_flatMap.mp hi
      exact hf b hb i hi
    have hbody' : ∀ i ∈ (options.order f).blocks.flatMap Block.instrs, i.KeepsContext :=
      fun i hi ↦ hbody i ((horder.blocks.flatMap_right _).mem_iff.mp hi)
    rw [functionViolations, importsAfter_eq_self hbody, List.append_eq_nil_iff] at h
    rw [List.map_cons, functionViolations, importsAfter_eq_self hbody', List.append_eq_nil_iff]
    refine ⟨?_, ih (fun g hg ↦ hkeeps g (List.mem_cons_of_mem _ hg)) h.2⟩
    have hblocks := (blockViolations_eq_nil hf).mp h.1
    refine (blockViolations_eq_nil fun b hb ↦ hf b (horder.blocks.mem_iff.mp hb)).mpr fun b hb ↦ ?_
    rw [horder.displayName, Block.violations_congr horder.perm_labels]
    exact hblocks b (horder.blocks.mem_iff.mp hb)

/-- A valid module whose functions keep the context stays valid when blocks are put in order. -/
theorem violations_orderModule (options : Options) {m : Module}
    (hkeeps : ∀ f ∈ m.functions, f.KeepsContext) (h : m.violations = []) :
    (options.orderModule m).violations = [] := by
  rw [Module.violations, List.append_eq_nil_iff] at h ⊢
  exact ⟨h.1, functionViolations_map_order options hkeeps h.2⟩

/-! ## Legibility -/

theorem ReadContext.after_eq_self (context : ReadContext) {i : Instruction} (h : i.KeepsContext) :
    context.after i = context := by
  obtain ⟨himport, hint, hfloat⟩ := h
  have himported : ∀ fields, imported? i.opcode fields = none := by
    intro fields
    unfold imported?
    split
    · exact absurd (by assumption) himport
    · rfl
  have hdeclared : ScalarType.declared? i = none := by
    unfold ScalarType.declared?
    refine Option.eq_none_iff_forall_ne_some.mpr fun declared h ↦ ?_
    obtain ⟨result, -, h⟩ := Option.bind_eq_some_iff.mp h
    obtain ⟨width, -, h⟩ := Option.bind_eq_some_iff.mp h
    split at h
    · next hopcode => exact hint hopcode
    · next hopcode => exact hfloat hopcode
    · cases h
  simp only [after, Registry.after, himported, declare, hdeclared]

/-- Instructions are legible one part after the other. -/
theorem legibleFrom_append {context : ReadContext} {front back : List Instruction} :
    LegibleFrom context (front ++ back) ↔
      LegibleFrom context front ∧ LegibleFrom (front.foldl ReadContext.after context) back := by
  induction front generalizing context with
  | nil => exact (true_and _).symm ▸ Iff.rfl
  | cons i front ih => rw [List.cons_append, LegibleFrom, ih, LegibleFrom, List.foldl_cons, and_assoc]

/-- Where the context stays the same the order does not matter. -/
theorem legibleFrom_iff {context : ReadContext} {instrs : List Instruction}
    (h : ∀ i ∈ instrs, i.KeepsContext) :
    LegibleFrom context instrs ↔ ∀ i ∈ instrs, i.Legible context := by
  induction instrs with
  | nil => exact iff_of_true trivial (List.forall_mem_nil _)
  | cons i instrs ih =>
    rw [LegibleFrom, context.after_eq_self (h i List.mem_cons_self),
      ih fun j hj ↦ h j (List.mem_cons_of_mem _ hj), List.forall_mem_cons]

theorem Instruction.keepsContext_of_isStructural {i : Instruction}
    (h : i.opcode.isStructural = true) : i.KeepsContext :=
  ⟨(Opcode.ne_of_isStructural rfl h).symm, (Opcode.ne_of_isStructural rfl h).symm,
    (Opcode.ne_of_isStructural rfl h).symm⟩

theorem Function.keepsContext_of_mem_instructions {f : Function} (hplaced : f.WellPlaced)
    (hkeeps : f.KeepsContext) : ∀ i ∈ f.instructions, i.KeepsContext := by
  intro i hi
  rcases List.mem_append.mp hi with hi | hi
  · rcases List.mem_append.mp hi with hi | hi
    · rcases List.mem_cons.mp hi with rfl | hi
      · exact Instruction.keepsContext_of_isStructural (by rw [hplaced.header]; rfl)
      · exact Instruction.keepsContext_of_isStructural (by rw [hplaced.params i hi]; rfl)
    · obtain ⟨b, hb, hi⟩ := List.mem_flatMap.mp hi
      rcases List.mem_cons.mp hi with rfl | hi
      · exact Instruction.keepsContext_of_isStructural rfl
      · exact hkeeps b hb i hi
  · rw [List.mem_singleton.mp hi]
    exact Instruction.keepsContext_of_isStructural rfl

/-- Instructions stay legible in another order if no body changes the context. -/
theorem legibleFrom_orderModule (options : Options) {m : Module} (hplaced : m.WellPlaced)
    (hkeeps : ∀ f ∈ m.functions, f.KeepsContext) (h : LegibleFrom {} m.instructions) :
    LegibleFrom {} (options.orderModule m).instructions := by
  have hinstrs : ∀ i ∈ m.functions.flatMap Function.instructions, i.KeepsContext := by
    intro i hi
    obtain ⟨f, hf, hi⟩ := List.mem_flatMap.mp hi
    exact Function.keepsContext_of_mem_instructions (hplaced.functions f hf) (hkeeps f hf) i hi
  have hmem : ∀ i ∈ (m.functions.map options.order).flatMap Function.instructions,
      i ∈ m.functions.flatMap Function.instructions := by
    intro i hi
    obtain ⟨g, hg, hi⟩ := List.mem_flatMap.mp hi
    obtain ⟨f, hf, rfl⟩ := List.mem_map.mp hg
    exact List.mem_flatMap.mpr
      ⟨f, hf, (options.rearranges_order f).perm_instructions.mem_iff.mp hi⟩
  obtain ⟨hglobals, hfunctions⟩ := legibleFrom_append.mp h
  rw [legibleFrom_iff hinstrs] at hfunctions
  exact legibleFrom_append.mpr ⟨hglobals, (legibleFrom_iff fun i hi ↦ hinstrs i (hmem i hi)).mpr
    fun i hi ↦ hfunctions i (hmem i hi)⟩

theorem Options.wellPlaced_orderModule (options : Options) {m : Module} (h : m.WellPlaced) :
    (options.orderModule m).WellPlaced := by
  refine ⟨h.globals, fun g hg ↦ ?_⟩
  obtain ⟨f, hf, rfl⟩ := List.mem_map.mp hg
  exact (options.rearranges_order f).wellPlaced (h.functions f hf)

/-- Functions keep their names when their blocks are put in order. -/
theorem Options.named_orderModule (options : Options) {m : Module} (h : m.Named) :
    (options.orderModule m).Named := by
  intro g hg
  obtain ⟨f, hf, rfl⟩ := List.mem_map.mp hg
  rw [(options.rearranges_order f).name, (options.rearranges_order f).result?]
  exact h f hf

/-! ## Comments -/

/-- A function is called by a name that the module gives, if by any. -/
theorem newline_notMem_name {m : Module} (hnamed : m.Named)
    (hnames : ∀ i ∈ m.globals, ∀ naming ∈ Module.naming? i, '\n' ∉ naming.2.toList)
    {f : Function} (hf : f ∈ m.functions) : ∀ given ∈ f.name, '\n' ∉ given.toList := by
  intro given hname
  rw [Option.mem_def, hnamed f hf, Option.bind_eq_some_iff] at hname
  obtain ⟨r, -, hgiven⟩ := hname
  obtain ⟨i, hi, hnaming⟩ := List.mem_filterMap.mp (mem_of_lookup_eq_some hgiven)
  exact hnames i (List.mem_reverse.mp hi) (r, given) hnaming

theorem newline_notMem_comment {m : Module} {comments : Bool} (hnamed : m.Named)
    (h : comments = true → '\n' ∉ m.name.toList ∧
      ∀ i ∈ m.globals, ∀ naming ∈ Module.naming? i, '\n' ∉ naming.2.toList) :
    ∀ text, .comment text ∈ m.items comments → '\n' ∉ text.toList :=
  fun _ ↦ Module.newline_notMem_of_comment_mem fun hcomments ↦
    ⟨(h hcomments).1, fun _ ↦ newline_notMem_name hnamed (h hcomments).2⟩

/-! ## Normalizing -/

/-- Normalizing what is written for a normalized source changes nothing. -/
theorem normalize_idempotent {source name text : String} {m : Module} {options : Options}
    {dumpAfter dumpAfter' : Option String}
    (hread : (Module.read source name).result = .ok m)
    (hfirst : Opcode.globalsFirst ((Module.sourceInstructions source).map Instruction.opcode) = true)
    (hfloats : Module.storesFloats {} (Module.sourceInstructions source) = true)
    (hlabels : ∀ f ∈ m.functions, f.labels.Nodup)
    (hkeeps : ∀ f ∈ m.functions, f.KeepsContext)
    (hcomments : options.comments = true → '\n' ∉ name.toList ∧
      ∀ i ∈ m.globals, ∀ naming ∈ Module.naming? i, '\n' ∉ naming.2.toList)
    (hnormalize : (normalize source name .assembly options dumpAfter).result = .ok text) :
    (normalize text name .assembly options dumpAfter').result = .ok text := by
  obtain ⟨m', hread', hviolations, hwrite⟩ := normalize_eq_ok.mp hnormalize
  obtain rfl : m = m' := Except.ok.inj (hread.symm.trans hread')
  obtain ⟨hplaced, hnamed, rfl⟩ := Module.wellPlaced_of_read hread
  have hlegible := Module.legibleFrom_sourceInstructions hread hfloats
  rw [← Module.instructions_of_read hread hfirst] at hlegible
  have hnamed' := options.named_orderModule hnamed
  obtain ⟨text', hwrite', hreads⟩ := Module.exists_write_read
    (options.wellPlaced_orderModule hplaced) hnamed'
    (legibleFrom_orderModule options hplaced hkeeps hlegible)
    (newline_notMem_comment hnamed' hcomments)
  obtain rfl : text = text' := Except.ok.inj (hwrite.symm.trans hwrite')
  refine normalize_eq_ok.mpr ⟨options.orderModule m, hreads,
    fun hvalidate ↦ violations_orderModule options hkeeps (hviolations hvalidate), ?_⟩
  rw [options.orderModule_orderModule hlabels]
  exact hwrite

/-- A source in which a block comes before the one that dominates it. -/
def unsortedSource : String := String.join [
  "OpName %2 \"f\"\n",
  "OpFunction %1 %2 None %1\n",
  "OpLabel %3\n",
  "OpBranch %5\n",
  "OpLabel %4\n",
  "OpReturn\n",
  "OpLabel %5\n",
  "OpBranch %4\n",
  "OpFunctionEnd\n"]

def unsorted : Module where
  name := "unsorted"
  globals := [⟨.opName, .reg ⟨1⟩ :: StringWords.operands "f", .integer⟩]
  functions := [
    { header := ⟨.opFunction, [.reg ⟨0⟩, .reg ⟨1⟩, .imm 0, .reg ⟨0⟩], .integer⟩
      name := some "f"
      blocks := [
        ⟨⟨2⟩, [⟨.opBranch, [.reg ⟨4⟩], .integer⟩]⟩,
        ⟨⟨3⟩, [⟨.opReturn, [], .integer⟩]⟩,
        ⟨⟨4⟩, [⟨.opBranch, [.reg ⟨3⟩], .integer⟩]⟩] }]

def sortedText : String := String.join [
  "; SPIR-V\n",
  "; Module: unsorted\n",
  "OpName %2 \"f\"\n",
  "; -- Begin function f\n",
  "OpFunction %1 %2 None %1\n",
  "OpLabel %3\n",
  "OpBranch %5\n",
  "OpLabel %5\n",
  "OpBranch %4\n",
  "OpLabel %4\n",
  "OpReturn\n",
  "OpFunctionEnd\n",
  "; -- End function\n"]

theorem normalize_idempotent_unsorted :
    (normalize unsortedSource "unsorted" .assembly {} none).result = .ok sortedText ∧
      (normalize sortedText "unsorted" .assembly {} none).result = .ok sortedText := by
  have hread : (Module.read unsortedSource "unsorted").result = .ok unsorted := by
    rw [Module.read, tokenize, unsortedSource, String.toList_join]
    decide +kernel
  have hinstrs : Module.sourceInstructions unsortedSource = unsorted.instructions := by
    rw [Module.sourceInstructions, tokenize, unsortedSource, String.toList_join]
    decide +kernel
  have hkeeps : ∀ f ∈ unsorted.functions, f.KeepsContext := by
    unfold Function.KeepsContext Instruction.KeepsContext
    decide +kernel
  have hnormalize :
      (normalize unsortedSource "unsorted" .assembly {} none).result = .ok sortedText :=
    normalize_eq_ok.mpr ⟨unsorted, hread, fun _ ↦ by decide +kernel, by decide +kernel⟩
  refine ⟨hnormalize, normalize_idempotent hread ?_ ?_ (by decide +kernel) hkeeps
    (fun _ ↦ by decide +kernel) hnormalize⟩
  · rw [hinstrs]
    decide +kernel
  · rw [hinstrs]
    decide +kernel

end SpirvText
