import Mathlib.Data.List.Basic
import Mathlib.Tactic.Common
import SpirvText.Module.Reader
import SpirvText.Module.Writer
import SpirvText.Proofs.Inversion

/-!
# Where instructions go

A module in the making takes one instruction after the other, and where each goes depends on its
opcode and on whether a function is open (`Assembly.add_eq_ok`).  What is outside of the spans of
functions goes to the global instructions, and what is inside of them to the functions, each in its
order (`Assembly.spans_of_foldlM_add`).  So if no global instruction comes after a function, the
instructions of the finished module, in the order in which they are written, are those that were
added (`Assembly.instructions_of_foldlM_add`).  Conversely, adding the instructions of a module one
after the other builds the same module up to the names of its functions
(`Module.foldlM_add_instructions`).
-/

namespace SpirvText

/-! ## The instructions of a module -/

def Opcode.isStructural : Opcode → Bool
  | .opFunction | .opFunctionEnd | .opFunctionParameter | .opLabel => true
  | _ => false

theorem Opcode.isStructural_eq_false {o : Opcode} (hfunction : o ≠ .opFunction)
    (hend : o ≠ .opFunctionEnd) (hparam : o ≠ .opFunctionParameter) (hlabel : o ≠ .opLabel) :
    o.isStructural = false := by
  unfold isStructural
  split
  · exact absurd rfl hfunction
  · exact absurd rfl hend
  · exact absurd rfl hparam
  · exact absurd rfl hlabel
  · rfl

theorem Opcode.ne_of_isStructural {o p : Opcode} (ho : o.isStructural = false)
    (hp : p.isStructural = true) : o ≠ p := by
  rintro rfl
  rw [ho] at hp
  cases hp

/-- The instructions of a block, its label first. -/
def Block.instructions (b : Block) : List Instruction := b.labelInstr :: b.instrs

namespace Function

/-- The instructions of a function up to its end. -/
def openInstructions (f : Function) : List Instruction :=
  f.header :: f.params ++ f.blocks.flatMap Block.instructions

def instructions (f : Function) : List Instruction := f.openInstructions ++ [endInstr]

/-- A function whose instructions are in the places that their opcodes call for. -/
structure WellPlaced (f : Function) : Prop where
  header : f.header.opcode = .opFunction
  params : ∀ i ∈ f.params, i.opcode = .opFunctionParameter
  body : ∀ b ∈ f.blocks, ∀ i ∈ b.instrs, i.opcode.isStructural = false

end Function

namespace Module

/-- The instructions of a module, in the order in which they are written. -/
def instructions (m : Module) : List Instruction :=
  m.globals ++ m.functions.flatMap Function.instructions

/-- A module whose instructions are in the places that their opcodes call for. -/
structure WellPlaced (m : Module) : Prop where
  globals : ∀ i ∈ m.globals, i.opcode.isStructural = false
  functions : ∀ f ∈ m.functions, f.WellPlaced

end Module

/-- The labels and function ends that a module has no place to keep anything of, but the register of
a label. -/
structure Instruction.Regular (i : Instruction) : Prop where
  label : ∀ r, i.opcode = .opLabel → i.reg? 0 = some r → i = ⟨.opLabel, [.reg r], .integer⟩
  functionEnd : i.opcode = .opFunctionEnd → i = Function.endInstr

namespace Assembly

/-! ## One instruction -/

/-- What adding an instruction can do. -/
inductive Adds (a : Assembly) (i : Instruction) : Assembly → Prop
  | header : i.opcode = .opFunction → a.openFunction = none →
    Adds a i { a with openFunction := some { header := i } }
  | functionEnd {f : Function} : i.opcode = .opFunctionEnd → a.openFunction = some f →
    Adds a i { a with functions := a.functions ++ [f], openFunction := none }
  | param {f : Function} : i.opcode = .opFunctionParameter → a.openFunction = some f →
    f.blocks = [] → Adds a i { a with openFunction := some { f with params := f.params ++ [i] } }
  | label {f : Function} {r : Reg} : i.opcode = .opLabel → a.openFunction = some f →
    i.reg? 0 = some r → Adds a i { a with openFunction := some (f.addBlock r) }
  | body {f f' : Function} : i.opcode.isStructural = false → a.openFunction = some f →
    f.addInstr? i = some f' → Adds a i { a with openFunction := some f' }
  | global : i.opcode.isStructural = false → a.openFunction = none →
    Adds a i { a with globals := a.globals ++ [i] }

theorem adds_of_add {a a' : Assembly} {i : Instruction} (h : a.add i = .ok a') : a.Adds i a' := by
  unfold add at h
  split at h
  · next hopcode hopen =>
    cases h
    exact .header hopcode hopen
  · cases h
  · next f hopcode hopen =>
    cases h
    exact .functionEnd hopcode hopen
  · next f hopcode hopen =>
    split at h
    · next hblocks =>
      cases h
      exact .param hopcode hopen (List.isEmpty_iff.mp hblocks)
    · cases h
  · next f hopcode hopen =>
    split at h
    · next r hlabel =>
      cases h
      exact .label hopcode hopen hlabel
    · cases h
  · cases h
  · cases h
  · cases h
  · next f hopen hfunction hend hparam hlabel =>
    split at h
    · next f' hadd =>
      cases h
      exact .body (Opcode.isStructural_eq_false hfunction hend hparam hlabel) hopen hadd
    · cases h
  · next hopen hfunction hend hparam hlabel =>
    cases h
    exact .global (Opcode.isStructural_eq_false hfunction hend hparam hlabel) hopen

theorem add_of_adds {a a' : Assembly} {i : Instruction} (h : a.Adds i a') : a.add i = .ok a' := by
  cases h with
  | header hopcode hopen => simp only [add, hopcode, hopen]
  | functionEnd hopcode hopen => simp only [add, hopcode, hopen]
  | param hopcode hopen hblocks => simp [add, hopcode, hopen, hblocks]
  | label hopcode hopen hlabel => simp only [add, hopcode, hopen, hlabel]
  | body hopcode hopen hadd =>
    unfold add
    split <;> simp_all [Opcode.isStructural]
  | global hopcode hopen =>
    unfold add
    split <;> simp_all [Opcode.isStructural]

/-- Adding an instruction does one of the things that it can do, or fails. -/
theorem add_eq_ok {a a' : Assembly} {i : Instruction} : a.add i = .ok a' ↔ a.Adds i a' :=
  ⟨adds_of_add, add_of_adds⟩

/-- Only the last block changes. -/
theorem eq_of_addInstr? {f f' : Function} {i : Instruction} (h : f.addInstr? i = some f') :
    ∃ front last, f.blocks = front ++ [last] ∧
      f' = { f with blocks := front ++ [{ last with instrs := last.instrs ++ [i] }] } := by
  unfold Function.addInstr? at h
  split at h
  · cases h
  · next last hlast =>
    cases h
    exact ⟨f.blocks.dropLast, last, (List.dropLast_append_getLast? last hlast).symm, rfl⟩

/-- A module in the making whose instructions are in their places.  Its functions have no names
yet. -/
structure WellPlaced (a : Assembly) : Prop where
  globals : ∀ i ∈ a.globals, i.opcode.isStructural = false
  functions : ∀ f ∈ a.functions, f.WellPlaced ∧ f.name = none
  openFunction : ∀ f, a.openFunction = some f → f.WellPlaced ∧ f.name = none

theorem wellPlaced_empty : ({} : Assembly).WellPlaced :=
  ⟨List.forall_mem_nil _, List.forall_mem_nil _, fun f hf ↦ absurd hf (Option.some_ne_none f).symm⟩

/-- Adding an instruction leaves all instructions in their places. -/
theorem Adds.wellPlaced {a a' : Assembly} {i : Instruction} (h : a.Adds i a')
    (ha : a.WellPlaced) : a'.WellPlaced := by
  obtain ⟨hglobals, hfunctions, hopenFunction⟩ := ha
  cases h with
  | header hopcode hopen =>
    refine ⟨hglobals, hfunctions, ?_⟩
    rintro f ⟨⟩
    exact ⟨⟨hopcode, List.forall_mem_nil _, List.forall_mem_nil _⟩, rfl⟩
  | @functionEnd f hopcode hopen =>
    refine ⟨hglobals, ?_, fun g hg ↦ absurd hg (Option.some_ne_none g).symm⟩
    exact List.forall_mem_append.mpr
      ⟨hfunctions, List.forall_mem_singleton.mpr (hopenFunction f hopen)⟩
  | @param f hopcode hopen hblocks =>
    obtain ⟨⟨hheader, hparams, hbody⟩, hname⟩ := hopenFunction f hopen
    refine ⟨hglobals, hfunctions, ?_⟩
    rintro g ⟨⟩
    refine ⟨⟨hheader, ?_, hbody⟩, hname⟩
    exact List.forall_mem_append.mpr ⟨hparams, List.forall_mem_singleton.mpr hopcode⟩
  | @label f r hopcode hopen hlabel =>
    obtain ⟨⟨hheader, hparams, hbody⟩, hname⟩ := hopenFunction f hopen
    refine ⟨hglobals, hfunctions, ?_⟩
    rintro g ⟨⟩
    refine ⟨⟨hheader, hparams, ?_⟩, hname⟩
    exact List.forall_mem_append.mpr
      ⟨hbody, List.forall_mem_singleton.mpr (List.forall_mem_nil _)⟩
  | @body f f' hopcode hopen hadd =>
    obtain ⟨⟨hheader, hparams, hbody⟩, hname⟩ := hopenFunction f hopen
    obtain ⟨front, last, hblocks, rfl⟩ := eq_of_addInstr? hadd
    rw [hblocks, List.forall_mem_append, List.forall_mem_singleton] at hbody
    obtain ⟨hfront, hlast⟩ := hbody
    refine ⟨hglobals, hfunctions, ?_⟩
    rintro g ⟨⟩
    have hlast' : ∀ j ∈ last.instrs ++ [i], j.opcode.isStructural = false :=
      List.forall_mem_append.mpr ⟨hlast, List.forall_mem_singleton.mpr hopcode⟩
    refine ⟨⟨hheader, hparams, ?_⟩, hname⟩
    exact List.forall_mem_append.mpr ⟨hfront, List.forall_mem_singleton.mpr hlast'⟩
  | global hopcode hopen =>
    refine ⟨?_, hfunctions, hopenFunction⟩
    exact List.forall_mem_append.mpr ⟨hglobals, List.forall_mem_singleton.mpr hopcode⟩

/-- The instructions that have been added, in the order in which the module is written. -/
def instructions (a : Assembly) : List Instruction :=
  a.globals ++ a.functions.flatMap Function.instructions ++
    a.openFunction.toList.flatMap Function.openInstructions

def functionInstructions (a : Assembly) : List Instruction :=
  a.functions.flatMap Function.instructions ++
    a.openFunction.toList.flatMap Function.openInstructions

theorem instructions_eq (a : Assembly) : a.instructions = a.globals ++ a.functionInstructions :=
  List.append_assoc _ _ _

/-- In a function and at the header of one, an instruction is added to the functions. -/
theorem Adds.inside {a b : Assembly} {i : Instruction} (h : a.Adds i b) (hi : i.Regular)
    (hinside : a.openFunction.isSome = true ∨ i.opcode = .opFunction) :
    b.globals = a.globals ∧ b.functionInstructions = a.functionInstructions ++ [i] ∧
      b.openFunction.isSome = (i.opcode != .opFunctionEnd) := by
  cases h with
  | header hopcode hopen =>
    refine ⟨rfl, ?_, by rw [hopcode]; rfl⟩
    simp [functionInstructions, hopen, Function.openInstructions]
  | functionEnd hopcode hopen =>
    refine ⟨rfl, ?_, by rw [hopcode]; rfl⟩
    rw [hi.functionEnd hopcode]
    simp [functionInstructions, hopen, Function.instructions]
  | param hopcode hopen hblocks =>
    refine ⟨rfl, ?_, by rw [hopcode]; rfl⟩
    simp [functionInstructions, hopen, Function.openInstructions, hblocks]
  | @label f r hopcode hopen hlabel =>
    refine ⟨rfl, ?_, by rw [hopcode]; rfl⟩
    rw [hi.label r hopcode hlabel]
    simp [functionInstructions, hopen, Function.openInstructions, Function.addBlock,
      Block.instructions, Block.labelInstr]
  | body hopcode hopen hadd =>
    obtain ⟨front, last, hblocks, rfl⟩ := eq_of_addInstr? hadd
    refine ⟨rfl, ?_, (bne_iff_ne.mpr (Opcode.ne_of_isStructural hopcode rfl)).symm⟩
    simp [functionInstructions, hopen, Function.openInstructions, hblocks, Block.instructions,
      Block.labelInstr]
  | global hopcode hopen =>
    rcases hinside with hsome | hfunction
    · rw [hopen] at hsome
      cases hsome
    · exact absurd hfunction (Opcode.ne_of_isStructural hopcode rfl)

/-- Anywhere else it is added to the global instructions. -/
theorem Adds.outside {a b : Assembly} {i : Instruction} (h : a.Adds i b)
    (hopen : a.openFunction = none) (hopcode : i.opcode ≠ .opFunction) :
    b = { a with globals := a.globals ++ [i] } := by
  cases h with
  | global => rfl
  | header hfunction => exact absurd hfunction hopcode
  | functionEnd _ hsome | param _ hsome | label _ hsome | body _ hsome =>
    rw [hopen] at hsome
    cases hsome

/-! ## All instructions -/

theorem foldlM_add_cons {a c : Assembly} {i : Instruction} {instrs : List Instruction} :
    (i :: instrs).foldlM add a = .ok c ↔ ∃ b, a.Adds i b ∧ instrs.foldlM add b = .ok c := by
  simp only [List.foldlM_cons, bind_eq_ok, add_eq_ok]

theorem foldlM_add_append {a c : Assembly} {front back : List Instruction} :
    (front ++ back).foldlM add a = .ok c ↔
      ∃ b, front.foldlM add a = .ok b ∧ back.foldlM add b = .ok c := by
  simp only [List.foldlM_append, bind_eq_ok]

/-- Adding instructions one after the other leaves them in their places. -/
theorem wellPlaced_of_foldlM_add {a a' : Assembly} {instrs : List Instruction}
    (h : instrs.foldlM add a = .ok a') (ha : a.WellPlaced) : a'.WellPlaced := by
  induction instrs generalizing a with
  | nil =>
    cases h
    exact ha
  | cons i instrs ih =>
    obtain ⟨b, hadds, hmore⟩ := foldlM_add_cons.mp h
    exact ih hmore (hadds.wellPlaced ha)

end Assembly

/-! ## Spans

A function spans the instructions from its header through the next function end. -/

namespace Instruction

variable {inside : Bool} {i : Instruction} {instrs : List Instruction}

/-- Instructions, each with whether it is in the span of a function.  They begin `inside` of one or
not. -/
def markSpans : (inside : Bool) → List Instruction → List (Instruction × Bool)
  | _, [] => []
  | inside, i :: instrs =>
    let within := inside || i.opcode == .opFunction
    (i, within) :: markSpans (within && i.opcode != .opFunctionEnd) instrs

def outsideSpans (inside : Bool) (instrs : List Instruction) : List Instruction :=
  ((markSpans inside instrs).filter (!·.2)).map (·.1)

def insideSpans (inside : Bool) (instrs : List Instruction) : List Instruction :=
  ((markSpans inside instrs).filter (·.2)).map (·.1)

theorem markSpans_of_inside (h : inside = true ∨ i.opcode = .opFunction)
    (instrs : List Instruction) :
    markSpans inside (i :: instrs) = (i, true) :: markSpans (i.opcode != .opFunctionEnd) instrs := by
  have hwithin : (inside || i.opcode == .opFunction) = true := by
    rw [Bool.or_eq_true, beq_iff_eq]
    exact h
  rw [markSpans, hwithin, Bool.true_and]

theorem markSpans_of_outside (h : i.opcode ≠ .opFunction) (instrs : List Instruction) :
    markSpans false (i :: instrs) = (i, false) :: markSpans false instrs := by
  rw [markSpans, beq_false_of_ne h]
  rfl

/-- Marking leaves the instructions as they are. -/
theorem map_fst_markSpans (inside : Bool) (instrs : List Instruction) :
    (markSpans inside instrs).map (·.1) = instrs := by
  induction instrs generalizing inside with
  | nil => rfl
  | cons i instrs ih => rw [markSpans, List.map_cons, ih]

theorem mem_of_mem_outsideSpans (h : i ∈ outsideSpans inside instrs) : i ∈ instrs := by
  rw [← map_fst_markSpans inside instrs]
  exact (List.filter_sublist.map _).subset h

theorem mem_of_mem_insideSpans (h : i ∈ insideSpans inside instrs) : i ∈ instrs := by
  rw [← map_fst_markSpans inside instrs]
  exact (List.filter_sublist.map _).subset h

end Instruction

namespace Assembly

open Instruction

/-- What is in no span is added to the global instructions, and what is in a span to the functions,
each in its order. -/
theorem spans_of_foldlM_add {a b : Assembly} {instrs : List Instruction}
    (h : instrs.foldlM add a = .ok b) (hregular : ∀ i ∈ instrs, i.Regular) :
    b.globals = a.globals ++ outsideSpans a.openFunction.isSome instrs ∧
      b.functionInstructions =
        a.functionInstructions ++ insideSpans a.openFunction.isSome instrs := by
  induction instrs generalizing a with
  | nil =>
    cases h
    exact ⟨(List.append_nil _).symm, (List.append_nil _).symm⟩
  | cons i instrs ih =>
    obtain ⟨c, hadds, hmore⟩ := foldlM_add_cons.mp h
    obtain ⟨hi, hregular⟩ := List.forall_mem_cons.mp hregular
    obtain ⟨hglobals, hfunctions⟩ := ih hmore hregular
    rw [hglobals, hfunctions]
    unfold outsideSpans insideSpans
    by_cases hinside : a.openFunction.isSome = true ∨ i.opcode = .opFunction
    · obtain ⟨hsame, hadded, hopen⟩ := hadds.inside hi hinside
      rw [markSpans_of_inside hinside, hsame, hadded, hopen]
      simp
    · obtain ⟨hnone, hopcode⟩ := not_or.mp hinside
      have hopen : a.openFunction = none := by simpa using hnone
      rw [hadds.outside hopen hopcode, hopen, Option.isSome_none, markSpans_of_outside hopcode]
      simp [functionInstructions, hopen]

/-- Nothing is there that was not there before and has not been added. -/
theorem mem_of_foldlM_add {a b : Assembly} {instrs : List Instruction}
    (h : instrs.foldlM add a = .ok b) (hregular : ∀ i ∈ instrs, i.Regular) {j : Instruction}
    (hj : j ∈ b.instructions) : j ∈ a.instructions ∨ j ∈ instrs := by
  obtain ⟨hglobals, hfunctions⟩ := spans_of_foldlM_add h hregular
  rw [instructions_eq, hglobals, hfunctions] at hj
  rw [instructions_eq]
  simp only [List.mem_append] at hj ⊢
  rcases hj with (hj | hj) | (hj | hj)
  · exact .inl (.inl hj)
  · exact .inr (mem_of_mem_outsideSpans hj)
  · exact .inl (.inr hj)
  · exact .inr (mem_of_mem_insideSpans hj)

end Assembly

/-! ### Global instructions first -/

namespace Opcode

/-- Whether no instruction stands outside a function, the first of them being `inside` one or
not. -/
def functionsOnly : (inside : Bool) → List Opcode → Bool
  | _, [] => true
  | inside, o :: rest =>
    if o = .opFunction then functionsOnly true rest
    else inside && functionsOnly (o ≠ .opFunctionEnd) rest

/-- Whether global instructions come first and then functions: once a function has begun nothing
stands outside a function. -/
def globalsFirst (opcodes : List Opcode) : Bool :=
  functionsOnly false (opcodes.dropWhile (· != .opFunction))

end Opcode

namespace Instruction

/-- If nothing stands outside a function, everything is in a span. -/
theorem spans_of_functionsOnly {inside : Bool} {instrs : List Instruction}
    (h : Opcode.functionsOnly inside (instrs.map Instruction.opcode) = true) :
    outsideSpans inside instrs = [] ∧ insideSpans inside instrs = instrs := by
  induction instrs generalizing inside with
  | nil => exact ⟨rfl, rfl⟩
  | cons i instrs ih =>
    rw [List.map_cons, Opcode.functionsOnly] at h
    rw [outsideSpans, insideSpans]
    split at h
    · next hopcode =>
      obtain ⟨houtside, hinside⟩ := ih h
      rw [markSpans_of_inside (.inr hopcode), hopcode]
      exact ⟨houtside, congrArg (i :: ·) hinside⟩
    · obtain ⟨hin, h⟩ := Bool.and_eq_true_iff.mp h
      obtain ⟨houtside, hinside⟩ := ih h
      rw [decide_not, ← beq_eq_decide] at houtside hinside
      rw [markSpans_of_inside (.inl hin)]
      exact ⟨houtside, congrArg (i :: ·) hinside⟩

/-- If global instructions come first, so does what is in no span. -/
theorem outsideSpans_append_insideSpans {instrs : List Instruction}
    (h : Opcode.globalsFirst (instrs.map Instruction.opcode) = true) :
    outsideSpans false instrs ++ insideSpans false instrs = instrs := by
  induction instrs with
  | nil => rfl
  | cons i instrs ih =>
    by_cases hopcode : i.opcode = .opFunction
    · have honly : Opcode.functionsOnly false ((i :: instrs).map Instruction.opcode) = true := by
        simpa [Opcode.globalsFirst, hopcode] using h
      obtain ⟨houtside, hinside⟩ := spans_of_functionsOnly honly
      rw [houtside, hinside, List.nil_append]
    · have hmore := ih (by simpa [Opcode.globalsFirst, hopcode] using h)
      rw [outsideSpans, insideSpans, markSpans_of_outside hopcode]
      exact congrArg (i :: ·) hmore

end Instruction

namespace Assembly

open Instruction

/-- Where no global instruction comes after a function, the module is written in the order in which
it was read. -/
theorem instructions_of_foldlM_add {a b : Assembly} {instrs : List Instruction}
    (h : instrs.foldlM add a = .ok b) (hregular : ∀ i ∈ instrs, i.Regular)
    (hopen : a.openFunction = none) (hfunctions : a.functions = [])
    (hfirst : Opcode.globalsFirst (instrs.map Instruction.opcode) = true) :
    b.instructions = a.instructions ++ instrs := by
  obtain ⟨hglobals, hadded⟩ := spans_of_foldlM_add h hregular
  have hnone : a.functionInstructions = [] := by simp [functionInstructions, hopen, hfunctions]
  rw [instructions_eq, instructions_eq, hglobals, hadded, hnone, hopen, List.nil_append,
    List.append_nil, List.append_assoc]
  exact congrArg (a.globals ++ ·) (outsideSpans_append_insideSpans hfirst)

/-! ## Building a module from its instructions -/

variable {globals : List Instruction} {functions : List Function} {header : Instruction}
  {params : List Instruction} {name : Option String} {blocks : List Block}

/-- Global instructions are added to the global ones. -/
theorem foldlM_add_globals {more : List Instruction}
    (hmore : ∀ i ∈ more, i.opcode.isStructural = false) :
    more.foldlM add ⟨globals, functions, none⟩ = .ok ⟨globals ++ more, functions, none⟩ := by
  induction more generalizing globals with
  | nil =>
    rw [List.append_nil]
    rfl
  | cons i more ih =>
    refine foldlM_add_cons.mpr ⟨_, .global (hmore i List.mem_cons_self) rfl, ?_⟩
    rw [ih fun j hj ↦ hmore j (List.mem_cons_of_mem _ hj), List.append_assoc]
    rfl

/-- Parameters are added to the function that is open, as long as it has no blocks. -/
theorem foldlM_add_params {more : List Instruction}
    (hmore : ∀ i ∈ more, i.opcode = .opFunctionParameter) :
    more.foldlM add ⟨globals, functions, some ⟨header, params, name, []⟩⟩ =
      .ok ⟨globals, functions, some ⟨header, params ++ more, name, []⟩⟩ := by
  induction more generalizing params with
  | nil =>
    rw [List.append_nil]
    rfl
  | cons i more ih =>
    refine foldlM_add_cons.mpr ⟨_, .param (hmore i List.mem_cons_self) rfl rfl, ?_⟩
    rw [ih fun j hj ↦ hmore j (List.mem_cons_of_mem _ hj), List.append_assoc]
    rfl

/-- Instructions are added to the last block of the function that is open. -/
theorem foldlM_add_body {label : Reg} {instrs more : List Instruction}
    (hmore : ∀ i ∈ more, i.opcode.isStructural = false) :
    more.foldlM add
        ⟨globals, functions, some ⟨header, params, name, blocks ++ [⟨label, instrs⟩]⟩⟩ =
      .ok ⟨globals, functions, some ⟨header, params, name, blocks ++ [⟨label, instrs ++ more⟩]⟩⟩ := by
  induction more generalizing instrs with
  | nil =>
    rw [List.append_nil]
    rfl
  | cons i more ih =>
    have hadd : Function.addInstr? ⟨header, params, name, blocks ++ [⟨label, instrs⟩]⟩ i =
        some ⟨header, params, name, blocks ++ [⟨label, instrs ++ [i]⟩]⟩ := by
      simp [Function.addInstr?]
    refine foldlM_add_cons.mpr ⟨_, .body (hmore i List.mem_cons_self) rfl hadd, ?_⟩
    rw [ih fun j hj ↦ hmore j (List.mem_cons_of_mem _ hj), List.append_assoc]
    rfl

/-- Blocks are added to the function that is open, each with its label and its instructions. -/
theorem foldlM_add_blocks {more : List Block}
    (hmore : ∀ b ∈ more, ∀ i ∈ b.instrs, i.opcode.isStructural = false) :
    (more.flatMap Block.instructions).foldlM add
        ⟨globals, functions, some ⟨header, params, name, blocks⟩⟩ =
      .ok ⟨globals, functions, some ⟨header, params, name, blocks ++ more⟩⟩ := by
  induction more generalizing blocks with
  | nil =>
    rw [List.append_nil]
    rfl
  | cons b more ih =>
    rw [List.flatMap_cons]
    refine foldlM_add_append.mpr ⟨_, foldlM_add_cons.mpr ⟨_, .label rfl rfl rfl,
      foldlM_add_body (hmore b List.mem_cons_self)⟩, ?_⟩
    rw [ih fun c hc ↦ hmore c (List.mem_cons_of_mem _ hc), List.append_assoc]
    rfl

/-- A function is added with all of its parts, but without its name. -/
theorem foldlM_add_function {f : Function} (hf : f.WellPlaced) :
    f.instructions.foldlM add ⟨globals, functions, none⟩ =
      .ok ⟨globals, functions ++ [{ f with name := none }], none⟩ :=
  foldlM_add_append.mpr ⟨_, foldlM_add_append.mpr
    ⟨_, foldlM_add_cons.mpr ⟨_, .header hf.header rfl, foldlM_add_params hf.params⟩,
      foldlM_add_blocks hf.body⟩, foldlM_add_cons.mpr ⟨_, .functionEnd rfl rfl, rfl⟩⟩

theorem foldlM_add_functions {more : List Function} (hmore : ∀ f ∈ more, f.WellPlaced) :
    (more.flatMap Function.instructions).foldlM add ⟨globals, functions, none⟩ =
      .ok ⟨globals, functions ++ more.map fun f ↦ { f with name := none }, none⟩ := by
  induction more generalizing functions with
  | nil =>
    rw [List.map_nil, List.append_nil]
    rfl
  | cons f more ih =>
    rw [List.flatMap_cons]
    refine foldlM_add_append.mpr ⟨_, foldlM_add_function (hmore f List.mem_cons_self), ?_⟩
    rw [ih fun g hg ↦ hmore g (List.mem_cons_of_mem _ hg), List.append_assoc]
    rfl

end Assembly

/-- The instructions of a module build it again, up to the names of its functions. -/
theorem Module.foldlM_add_instructions {m : Module} (hm : m.WellPlaced) :
    m.instructions.foldlM Assembly.add {} =
      .ok ⟨m.globals, m.functions.map fun f ↦ { f with name := none }, none⟩ :=
  Assembly.foldlM_add_append.mpr
    ⟨_, Assembly.foldlM_add_globals hm.globals, Assembly.foldlM_add_functions hm.functions⟩

end SpirvText
