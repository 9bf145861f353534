import Mathlib.Computability.Language
import SpirvText.Proofs.Module.RoundTrip

/-!
# The grammar of sources

A module in the making is outside of a function, among the parameters of one, or among its blocks.
For each of these phases there is a language of what may follow, and both the module and the
language take one opcode at a time (`Assembly.exists_adds_of_steps`, `Grammar.cons_mem_rest_iff`).
So a source of which every line can be read is accepted just if its opcodes are those of global
instructions and functions in any order.  The narrower language in which all global instructions
come first is that of the sources that have them in front (`Grammar.mem_layout_iff`).
-/

namespace SpirvText

open Computability

/-! ## Languages of opcodes -/

namespace Grammar

def inner : Language Opcode := {word | ∃ o, o.isStructural = false ∧ word = [o]}

def block : Language Opcode := {[.opLabel]} * inner∗

def function : Language Opcode :=
  {[.opFunction]} * ({[.opFunctionParameter]}∗ * (block∗ * {[.opFunctionEnd]}))

def layout : Language Opcode := inner∗ * function∗

def mixed : Language Opcode := (inner + function)∗

variable {o p : Opcode} {word : List Opcode} {l k after : Language Opcode}

theorem cons_mem_inner_mul : o :: word ∈ inner * l ↔ o.isStructural = false ∧ word ∈ l := by
  rw [Language.mem_mul]
  constructor
  · rintro ⟨_, ⟨_, ho, rfl⟩, _, hword, ⟨⟩⟩
    exact ⟨ho, hword⟩
  · rintro ⟨ho, hword⟩
    exact ⟨[o], ⟨o, ho, rfl⟩, word, hword, rfl⟩

theorem cons_mem_singleton_mul :
    o :: word ∈ ({[p]} : Language Opcode) * l ↔ o = p ∧ word ∈ l := by
  rw [Language.mem_mul]
  constructor
  · rintro ⟨_, rfl, _, hword, ⟨⟩⟩
    exact ⟨rfl, hword⟩
  · rintro ⟨rfl, hword⟩
    exact ⟨[o], rfl, word, hword, rfl⟩

theorem nil_mem_mul : [] ∈ l * k ↔ [] ∈ l ∧ [] ∈ k := by
  rw [Language.mem_mul]
  constructor
  · rintro ⟨front, hfront, back, hback, hnil⟩
    obtain ⟨rfl, rfl⟩ := List.append_eq_nil_iff.mp hnil
    exact ⟨hfront, hback⟩
  · rintro ⟨hl, hk⟩
    exact ⟨[], hl, [], hk, rfl⟩

/-- A repetition is over, or there is one more. -/
theorem mem_kstar_mul : word ∈ k∗ * l ↔ word ∈ l ∨ word ∈ k * (k∗ * l) := by
  conv_lhs => rw [← Language.one_add_self_mul_kstar_eq_kstar, add_mul, one_mul, mul_assoc]
  exact Language.mem_add _ _ _

/-! ### What may follow -/

inductive Phase where
  | outside
  /-- In a function, before its first label. -/
  | params
  /-- In a block. -/
  | body
  deriving DecidableEq, Repr

/-- What may follow in a phase, if `after` may follow outside of a function. -/
def Phase.rest (after : Language Opcode) : Phase → Language Opcode
  | outside => after
  | params => {[.opFunctionParameter]}∗ * (block∗ * ({[.opFunctionEnd]} * after))
  | body => inner∗ * (block∗ * ({[.opFunctionEnd]} * after))

/-- Where blocks may follow, either the function ends or a label comes. -/
theorem cons_mem_blocks :
    o :: word ∈ block∗ * ({[.opFunctionEnd]} * after) ↔
      (o = .opFunctionEnd ∧ word ∈ after) ∨ (o = .opLabel ∧ word ∈ Phase.body.rest after) := by
  rw [mem_kstar_mul, cons_mem_singleton_mul]
  conv_lhs => rw [block, mul_assoc, cons_mem_singleton_mul]
  rfl

/-- After the header come parameters, and then what may come after blocks. -/
theorem cons_mem_params :
    o :: word ∈ Phase.params.rest after ↔
      ((o = .opFunctionEnd ∧ word ∈ after) ∨ (o = .opLabel ∧ word ∈ Phase.body.rest after)) ∨
        (o = .opFunctionParameter ∧ word ∈ Phase.params.rest after) := by
  rw [Phase.rest, mem_kstar_mul, cons_mem_blocks, cons_mem_singleton_mul]

/-- In a block come instructions, and then what may come after blocks. -/
theorem cons_mem_body :
    o :: word ∈ Phase.body.rest after ↔
      ((o = .opFunctionEnd ∧ word ∈ after) ∨ (o = .opLabel ∧ word ∈ Phase.body.rest after)) ∨
        (o.isStructural = false ∧ word ∈ Phase.body.rest after) := by
  conv_lhs => rw [Phase.rest, mem_kstar_mul, cons_mem_blocks, cons_mem_inner_mul]
  rfl

theorem cons_mem_function_mul :
    o :: word ∈ function * after ↔ o = .opFunction ∧ word ∈ Phase.params.rest after := by
  rw [function, mul_assoc, mul_assoc, mul_assoc, cons_mem_singleton_mul]
  rfl

theorem cons_mem_functions :
    o :: word ∈ function∗ ↔ o = .opFunction ∧ word ∈ Phase.params.rest function∗ := by
  conv_lhs => rw [← mul_one function∗, mem_kstar_mul, mul_one, cons_mem_function_mul]
  simp

/-- Outside of functions comes a global instruction or the header of a function. -/
theorem cons_mem_mixed :
    o :: word ∈ mixed ↔ (o.isStructural = false ∧ word ∈ mixed) ∨
      (o = .opFunction ∧ word ∈ Phase.params.rest mixed) := by
  conv_lhs => rw [mixed, ← mul_one (inner + function)∗, mem_kstar_mul, mul_one, add_mul,
    Language.mem_add, cons_mem_inner_mul, cons_mem_function_mul]
  simp [mixed]

/-- Before the first function come global instructions. -/
theorem cons_mem_layout :
    o :: word ∈ layout ↔ (o = .opFunction ∧ word ∈ Phase.params.rest function∗) ∨
      (o.isStructural = false ∧ word ∈ layout) := by
  conv_lhs => rw [layout, mem_kstar_mul, cons_mem_functions, cons_mem_inner_mul]
  rfl

/-- A source ends outside of functions. -/
theorem nil_mem_rest {phase : Phase} :
    [] ∈ phase.rest after ↔ phase = .outside ∧ [] ∈ after := by
  have hend : [] ∉ ({[.opFunctionEnd]} : Language Opcode) := by
    intro h
    cases h
  cases phase <;> simp [Phase.rest, nil_mem_mul, hend]

/-- The phase that an opcode leads to. -/
inductive Phase.Steps : Phase → Opcode → Phase → Prop
  | header : Steps .outside .opFunction .params
  | param : Steps .params .opFunctionParameter .params
  | label {phase : Phase} : phase ≠ .outside → Steps phase .opLabel .body
  | functionEnd {phase : Phase} : phase ≠ .outside → Steps phase .opFunctionEnd .outside
  | body {o : Opcode} : o.isStructural = false → Steps .body o .body
  | global {o : Opcode} : o.isStructural = false → Steps .outside o .outside

/-- An opcode may come next just if it leads to a phase in which the rest may follow. -/
theorem cons_mem_rest_iff {phase : Phase} :
    o :: word ∈ phase.rest mixed ↔ ∃ next, phase.Steps o next ∧ word ∈ next.rest mixed := by
  cases phase with
  | outside =>
    rw [Phase.rest, cons_mem_mixed]
    constructor
    · rintro (⟨ho, hword⟩ | ⟨rfl, hword⟩)
      · exact ⟨.outside, .global ho, hword⟩
      · exact ⟨.params, .header, hword⟩
    · rintro ⟨_, hstep, hword⟩
      cases hstep with
      | header => exact .inr ⟨rfl, hword⟩
      | global ho => exact .inl ⟨ho, hword⟩
      | label h | functionEnd h => exact absurd rfl h
  | params =>
    rw [cons_mem_params]
    constructor
    · rintro ((⟨rfl, hword⟩ | ⟨rfl, hword⟩) | ⟨rfl, hword⟩)
      · exact ⟨.outside, .functionEnd (by decide), hword⟩
      · exact ⟨.body, .label (by decide), hword⟩
      · exact ⟨.params, .param, hword⟩
    · rintro ⟨_, hstep, hword⟩
      cases hstep with
      | param => exact .inr ⟨rfl, hword⟩
      | label => exact .inl (.inr ⟨rfl, hword⟩)
      | functionEnd => exact .inl (.inl ⟨rfl, hword⟩)
  | body =>
    rw [cons_mem_body]
    constructor
    · rintro ((⟨rfl, hword⟩ | ⟨rfl, hword⟩) | ⟨ho, hword⟩)
      · exact ⟨.outside, .functionEnd (by decide), hword⟩
      · exact ⟨.body, .label (by decide), hword⟩
      · exact ⟨.body, .body ho, hword⟩
    · rintro ⟨_, hstep, hword⟩
      cases hstep with
      | body ho => exact .inr ⟨ho, hword⟩
      | label => exact .inl (.inr ⟨rfl, hword⟩)
      | functionEnd => exact .inl (.inl ⟨rfl, hword⟩)

/-! ### Global instructions first -/

theorem functionsOnly_cons_of_inside (o : Opcode) (word : List Opcode) :
    Opcode.functionsOnly true (o :: word) = Opcode.functionsOnly (o ≠ .opFunctionEnd) word := by
  by_cases hfunction : o = .opFunction
  · simp [Opcode.functionsOnly, hfunction]
  · simp [Opcode.functionsOnly, hfunction]

/-- Once functions have begun, what stands outside of them is all that the narrower language
lacks. -/
theorem mem_rest_functions_iff {phase : Phase} :
    word ∈ phase.rest function∗ ↔
      word ∈ phase.rest mixed ∧ Opcode.functionsOnly (phase ≠ .outside) word = true := by
  induction word generalizing phase with
  | nil => simp [nil_mem_rest, mixed, Language.nil_mem_kstar, Opcode.functionsOnly]
  | cons o word ih =>
    have houtside : word ∈ function∗ ↔ word ∈ mixed ∧ Opcode.functionsOnly false word = true :=
      @ih .outside
    cases phase with
    | outside =>
      change _ ∈ function∗ ↔ _ ∈ mixed ∧ _
      rw [cons_mem_functions, cons_mem_mixed, ih]
      by_cases hfunction : o = .opFunction
      · simp [hfunction, Opcode.functionsOnly, Opcode.isStructural]
      · simp [hfunction, Opcode.functionsOnly]
    | params =>
      change _ ↔ _ ∧ Opcode.functionsOnly true (o :: word) = true
      rw [functionsOnly_cons_of_inside, cons_mem_params, cons_mem_params, houtside, ih, ih]
      by_cases hend : o = .opFunctionEnd
      · simp [hend]
      · simp [hend, or_and_right, and_assoc]
    | body =>
      change _ ↔ _ ∧ Opcode.functionsOnly true (o :: word) = true
      rw [functionsOnly_cons_of_inside, cons_mem_body, cons_mem_body, houtside, ih]
      by_cases hend : o = .opFunctionEnd
      · simp [hend, Opcode.isStructural]
      · simp [hend, or_and_right, and_assoc]

/-- The narrower language puts the global instructions first. -/
theorem mem_layout_iff : word ∈ layout ↔ word ∈ mixed ∧ Opcode.globalsFirst word = true := by
  induction word with
  | nil =>
    refine iff_of_true ?_ ⟨Language.nil_mem_kstar _, rfl⟩
    exact nil_mem_mul.mpr ⟨Language.nil_mem_kstar _, Language.nil_mem_kstar _⟩
  | cons o word ih =>
    rw [cons_mem_layout, cons_mem_mixed, ih, mem_rest_functions_iff]
    by_cases hfunction : o = .opFunction
    · simp [hfunction, Opcode.globalsFirst, Opcode.functionsOnly, Opcode.isStructural]
    · simp [hfunction, Opcode.globalsFirst, and_assoc]

end Grammar

/-! ## Modules in the making -/

namespace Grammar

/-- The phase in which a function is open, or none is. -/
def Phase.of : Option Function → Phase
  | none => .outside
  | some f => if f.blocks.isEmpty then .params else .body

variable {openFunction : Option Function}

/-- What is open in each phase. -/
inductive InPhase : Option Function → Phase → Prop
  | outside : InPhase none .outside
  | params {f : Function} : f.blocks = [] → InPhase (some f) .params
  | body {f : Function} : f.blocks ≠ [] → InPhase (some f) .body

/-- The phase says what is open. -/
theorem phase_eq_iff {phase : Phase} :
    Phase.of openFunction = phase ↔ InPhase openFunction phase := by
  constructor
  · rintro rfl
    cases openFunction with
    | none => exact .outside
    | some f =>
      by_cases hblocks : f.blocks = []
      · rw [Phase.of, if_pos (List.isEmpty_iff.mpr hblocks)]
        exact .params hblocks
      · rw [Phase.of, if_neg (List.isEmpty_iff.not.mpr hblocks)]
        exact .body hblocks
  · intro h
    cases h with
    | outside => rfl
    | params hblocks => exact if_pos (List.isEmpty_iff.mpr hblocks)
    | body hblocks => exact if_neg (List.isEmpty_iff.not.mpr hblocks)

theorem phase_eq_outside_iff : Phase.of openFunction = .outside ↔ openFunction = none := by
  rw [phase_eq_iff]
  constructor
  · rintro ⟨⟩
    rfl
  · rintro rfl
    exact .outside

theorem phase_ne_outside_iff : Phase.of openFunction ≠ .outside ↔ ∃ f, openFunction = some f := by
  rw [Ne, phase_eq_outside_iff]
  exact Option.ne_none_iff_exists'

end Grammar

namespace Assembly

open Grammar

variable {a b : Assembly} {i : Instruction}

/-- Adding an instruction is a step from phase to phase. -/
theorem Adds.steps (h : a.Adds i b) :
    (Phase.of a.openFunction).Steps i.opcode (Phase.of b.openFunction) := by
  cases h with
  | header hopcode hopen =>
    rw [hopen, hopcode]
    exact .header
  | functionEnd hopcode hopen =>
    rw [hopcode]
    exact .functionEnd (phase_ne_outside_iff.mpr ⟨_, hopen⟩)
  | @param f hopcode hopen hblocks =>
    have hafter : Phase.of (some { f with params := f.params ++ [i] }) = .params :=
      phase_eq_iff.mpr (.params hblocks)
    rw [hopcode, hopen, phase_eq_iff.mpr (.params hblocks), hafter]
    exact .param
  | label hopcode hopen =>
    rw [hopcode, phase_eq_iff.mpr (.body (List.concat_ne_nil _ _))]
    exact .label (phase_ne_outside_iff.mpr ⟨_, hopen⟩)
  | body hopcode hopen hadd =>
    obtain ⟨front, last, hblocks, rfl⟩ := eq_of_addInstr? hadd
    rw [hopen, phase_eq_iff.mpr (.body (hblocks ▸ List.concat_ne_nil _ _)),
      phase_eq_iff.mpr (.body (List.concat_ne_nil _ _))]
    exact .body hopcode
  | global hopcode hopen =>
    rw [hopen]
    exact .global hopcode

/-- Where there is a step, the instruction can be added. -/
theorem exists_adds_of_steps {next : Phase} (h : (Phase.of a.openFunction).Steps i.opcode next)
    (hlabel : i.opcode = .opLabel → ∃ r, i.reg? 0 = some r) :
    ∃ b, a.Adds i b ∧ Phase.of b.openFunction = next := by
  generalize hphase : Phase.of a.openFunction = phase, hopcode : i.opcode = o at h
  cases h with
  | header => exact ⟨_, .header hopcode (phase_eq_outside_iff.mp hphase), rfl⟩
  | param =>
    generalize hopen : a.openFunction = openFunction at hphase
    cases phase_eq_iff.mp hphase with
    | params hblocks =>
      exact ⟨_, .param hopcode hopen hblocks, phase_eq_iff.mpr (.params hblocks)⟩
  | label hne =>
    obtain ⟨f, hopen⟩ := phase_ne_outside_iff.mp (hphase ▸ hne)
    obtain ⟨r, hr⟩ := hlabel hopcode
    exact ⟨_, .label hopcode hopen hr, phase_eq_iff.mpr (.body (List.concat_ne_nil _ _))⟩
  | functionEnd hne =>
    obtain ⟨f, hopen⟩ := phase_ne_outside_iff.mp (hphase ▸ hne)
    exact ⟨_, .functionEnd hopcode hopen, rfl⟩
  | body ho =>
    generalize hopen : a.openFunction = openFunction at hphase
    cases phase_eq_iff.mp hphase with
    | @body f hblocks =>
      have hadd : f.addInstr? i = some { f with blocks := f.blocks.dropLast ++
          [{ f.blocks.getLast hblocks with
            instrs := (f.blocks.getLast hblocks).instrs ++ [i] }] } := by
        rw [Function.addInstr?, List.getLast?_eq_some_getLast hblocks]
      exact ⟨_, .body (hopcode ▸ ho) hopen hadd,
        phase_eq_iff.mpr (.body (List.concat_ne_nil _ _))⟩
  | global ho =>
    have hopen := phase_eq_outside_iff.mp hphase
    exact ⟨_, .global (hopcode ▸ ho) hopen, hphase⟩

/-- All instructions can be added, and leave no function open, just if their opcodes are what may
follow. -/
theorem exists_foldlM_add_iff {instrs : List Instruction}
    (hlabels : ∀ i ∈ instrs, i.opcode = .opLabel → ∃ r, i.reg? 0 = some r) :
    (∃ b, instrs.foldlM add a = .ok b ∧ b.openFunction = none) ↔
      instrs.map Instruction.opcode ∈ (Phase.of a.openFunction).rest mixed := by
  induction instrs generalizing a with
  | nil =>
    rw [List.map_nil, nil_mem_rest, phase_eq_outside_iff,
      and_iff_left (show [] ∈ mixed from Language.nil_mem_kstar _)]
    constructor
    · rintro ⟨_, ⟨⟩, hopen⟩
      exact hopen
    · exact fun hopen ↦ ⟨a, rfl, hopen⟩
  | cons i instrs ih =>
    obtain ⟨hlabel, hlabels⟩ := List.forall_mem_cons.mp hlabels
    rw [List.map_cons, cons_mem_rest_iff]
    constructor
    · rintro ⟨c, hfold, hopen⟩
      obtain ⟨b, hadds, hmore⟩ := foldlM_add_cons.mp hfold
      exact ⟨_, hadds.steps, (ih hlabels).mp ⟨c, hmore, hopen⟩⟩
    · rintro ⟨_, hstep, hword⟩
      obtain ⟨b, hadds, rfl⟩ := exists_adds_of_steps hstep hlabel
      obtain ⟨c, hmore, hopen⟩ := (ih hlabels).mpr hword
      exact ⟨c, foldlM_add_cons.mpr ⟨b, hadds, hmore⟩, hopen⟩

end Assembly

/-! ## Sources -/

namespace Module

open Grammar

/-- Whether an instruction can be read from each line that is not blank, after those before it. -/
def allReadable (context : ReadContext) : List Line → Bool
  | [] => true
  | ⟨[], _⟩ :: lines => allReadable context lines
  | ⟨first :: rest, stop⟩ :: lines =>
    match (Instruction.read context first rest stop).result with
    | .ok (_, context) => allReadable context lines
    | .error _ => false

variable {context : ReadContext} {a a' : Assembly} {lines : List Line}

theorem exists_reg_of_mem_lineInstructions :
    ∀ i ∈ lineInstructions context lines, i.opcode = .opLabel → ∃ r, i.reg? 0 = some r := by
  intro i hi hopcode
  obtain ⟨_, _, _, _, _, -, hread⟩ := exists_read_of_mem_lineInstructions hi
  obtain ⟨r, rfl⟩ := Instruction.exists_label_of_read hread hopcode
  exact ⟨r, rfl⟩

/-- Where all lines can be read, reading them is adding their instructions. -/
theorem readLines_eq_ok_iff (h : allReadable context lines = true) :
    (readLines context a lines).result = .ok a' ↔
      (lineInstructions context lines).foldlM Assembly.add a = .ok a' := by
  refine ⟨foldlM_add_lineInstructions, fun hfold ↦ ?_⟩
  induction lines generalizing context a with
  | nil =>
    cases hfold
    rfl
  | cons line lines ih =>
    obtain ⟨tokens, stop⟩ := line
    cases tokens with
    | nil => exact ih h hfold
    | cons first rest =>
      cases hread : (Instruction.read context first rest stop).result with
      | error e =>
        simp only [allReadable, hread] at h
        cases h
      | ok read =>
        obtain ⟨i, context'⟩ := read
        simp only [allReadable, hread] at h
        rw [lineInstructions_cons hread] at hfold
        obtain ⟨b, hadds, hmore⟩ := Assembly.foldlM_add_cons.mp hfold
        exact readLines_cons_eq_ok.mpr ⟨i, context', b, hread, hadds, ih h hmore⟩

def sourceOpcodes (source : String) : List Opcode :=
  (sourceInstructions source).map Instruction.opcode

/-- A source whose lines can be read is accepted just if its opcodes are in the grammar. -/
theorem exists_read_iff {source : String} (name : String) {ts : List Located}
    (hts : tokenize source = .ok ts) (hlines : allReadable {} (Line.split ts) = true) :
    (∃ m, (read source name).result = .ok m) ↔ sourceOpcodes source ∈ mixed := by
  rw [sourceOpcodes, sourceInstructions_eq hts]
  refine .trans ?_ (Assembly.exists_foldlM_add_iff (a := {}) exists_reg_of_mem_lineInstructions)
  constructor
  · rintro ⟨m, hread⟩
    obtain ⟨ts', b, hts', hread, hopen, -⟩ := read_eq_ok.mp hread
    obtain rfl : ts = ts' := Except.ok.inj (hts.symm.trans hts')
    exact ⟨b, (readLines_eq_ok_iff hlines).mp hread, hopen⟩
  · rintro ⟨b, hfold, hopen⟩
    exact ⟨_, read_eq_ok.mpr ⟨ts, b, hts, (readLines_eq_ok_iff hlines).mpr hfold, hopen, rfl⟩⟩

/-- A source of which every line can be read is accepted just if it is made of global instructions
and functions, in any order.  It is laid out with its global instructions in front just if it is
accepted and nothing stands outside of a function once one has begun. -/
theorem accepted_iff_mem_grammar {source : String} (name : String) {ts : List Located}
    (hts : tokenize source = .ok ts) (hlines : allReadable {} (Line.split ts) = true) :
    ((∃ m, (read source name).result = .ok m) ↔ sourceOpcodes source ∈ mixed) ∧
      (sourceOpcodes source ∈ layout ↔ (∃ m, (read source name).result = .ok m) ∧
        Opcode.globalsFirst (sourceOpcodes source) = true) := by
  have haccepted := exists_read_iff name hts hlines
  refine ⟨haccepted, ?_⟩
  rw [mem_layout_iff, haccepted]

/-- A source with a global instruction after a function. -/
def trailingSource : String := String.join [
  "OpFunction %1 %2 None %1\n",
  "OpFunctionParameter %1 %3\n",
  "OpLabel %4\n",
  "OpReturn\n",
  "OpFunctionEnd\n",
  "OpNop\n"]

def trailingTokens : List Located := [
  ⟨.ident "OpFunction", 1⟩, ⟨.id 1, 1⟩, ⟨.id 2, 1⟩, ⟨.ident "None", 1⟩, ⟨.id 1, 1⟩, ⟨.newline, 1⟩,
  ⟨.ident "OpFunctionParameter", 2⟩, ⟨.id 1, 2⟩, ⟨.id 3, 2⟩, ⟨.newline, 2⟩,
  ⟨.ident "OpLabel", 3⟩, ⟨.id 4, 3⟩, ⟨.newline, 3⟩,
  ⟨.ident "OpReturn", 4⟩, ⟨.newline, 4⟩,
  ⟨.ident "OpFunctionEnd", 5⟩, ⟨.newline, 5⟩,
  ⟨.ident "OpNop", 6⟩, ⟨.newline, 6⟩, ⟨.eof, 7⟩]

theorem tokenize_trailingSource : tokenize trailingSource = .ok trailingTokens := by
  rw [tokenize, trailingSource, String.toList_join]
  decide +kernel

theorem allReadable_trailingTokens :
    allReadable {} (Line.split trailingTokens) = true ∧
      (lineInstructions {} (Line.split trailingTokens)).map Instruction.opcode =
        [.opFunction, .opFunctionParameter, .opLabel, .opReturn, .opFunctionEnd, .opNop] := by
  decide +kernel

theorem sourceOpcodes_trailingSource : sourceOpcodes trailingSource =
    [.opFunction, .opFunctionParameter, .opLabel, .opReturn, .opFunctionEnd, .opNop] := by
  rw [sourceOpcodes, sourceInstructions, tokenize_trailingSource]
  exact allReadable_trailingTokens.2

theorem globalsFirst_trailingSource :
    Opcode.globalsFirst (sourceOpcodes trailingSource) = false := by
  rw [sourceOpcodes_trailingSource]
  decide

theorem mem_mixed_trailingSource : sourceOpcodes trailingSource ∈ mixed := by
  rw [sourceOpcodes_trailingSource]
  refine cons_mem_mixed.mpr (.inr ⟨rfl, cons_mem_params.mpr (.inr ⟨rfl, ?_⟩)⟩)
  refine cons_mem_params.mpr (.inl (.inr ⟨rfl, cons_mem_body.mpr (.inr ⟨rfl, ?_⟩)⟩))
  refine cons_mem_body.mpr (.inl (.inl ⟨rfl, cons_mem_mixed.mpr (.inl ⟨rfl, ?_⟩)⟩))
  exact Language.nil_mem_kstar _

/-- `trailingSource` is accepted, though a global instruction comes after a function. -/
theorem accepted_iff_mem_grammar_trailing :
    tokenize trailingSource = .ok trailingTokens ∧
      allReadable {} (Line.split trailingTokens) = true ∧
      (∃ m, (read trailingSource "trailing").result = .ok m) ∧
      sourceOpcodes trailingSource ∉ layout := by
  have hreadable := allReadable_trailingTokens.1
  obtain ⟨haccepted, hlayout⟩ :=
    accepted_iff_mem_grammar "trailing" tokenize_trailingSource hreadable
  refine ⟨tokenize_trailingSource, hreadable, haccepted.mpr mem_mixed_trailingSource, fun h ↦ ?_⟩
  have hfirst := (hlayout.mp h).2
  rw [globalsFirst_trailingSource] at hfirst
  cases hfirst

/-- A source can be accepted although a global instruction comes after a function. -/
theorem not_accepted_iff_layout_trailingSource :
    tokenize trailingSource = .ok trailingTokens ∧
      allReadable {} (Line.split trailingTokens) = true ∧
      ¬ ((∃ m, (read trailingSource "trailing").result = .ok m) ↔
        sourceOpcodes trailingSource ∈ layout) := by
  have hreadable := allReadable_trailingTokens.1
  refine ⟨tokenize_trailingSource, hreadable, fun hiff ↦ ?_⟩
  rw [exists_read_iff "trailing" tokenize_trailingSource hreadable, mem_layout_iff,
    globalsFirst_trailingSource] at hiff
  cases (hiff.mp mem_mixed_trailingSource).2

end Module

end SpirvText
