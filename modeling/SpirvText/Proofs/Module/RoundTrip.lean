import SpirvText.Proofs.Instruction.RoundTrip
import SpirvText.Proofs.Module.Lines
import SpirvText.Proofs.Module.Placement

/-!
# Modules written and read back

Instructions that were read one after the other can be written one after the other, and read again
from what is written (`Module.exists_writeItems`).  Together with where instructions go this makes a
module that was read, if no global instruction comes after a function in its source, readable from
what is written for it.
-/

namespace SpirvText

open Lexer

/-! ## Instructions one after the other -/

/-- Instructions of which each is legible after those before it. -/
def LegibleFrom : ReadContext → List Instruction → Prop
  | _, [] => True
  | context, i :: instrs => i.Legible context ∧ LegibleFrom (context.after i) instrs

theorem ReadContext.registry_declare (context : ReadContext) (i : Instruction) :
    (context.declare i).registry = context.registry := by
  unfold declare
  split <;> rfl

/-- The sets that are known after an instruction are those that its fields import. -/
theorem ReadContext.registry_after {context : ReadContext} {i : Instruction} {fields : List Field}
    {rest : List (Operand × Nat)} (hlaid : i.layOut context.registry = ⟨fields, .ok rest⟩) :
    (context.after i).registry = context.registry.after i.opcode fields := by
  rw [after, hlaid]
  exact registry_declare _ i

theorem Lexer.Reads.instruction {opcode : Opcode} {fields : List Field} {ts us : List Token}
    {cs : List Char} (h : List.Forall₂ Field.Shows fields ts) (hreads : Reads cs us) :
    Reads ((Instruction.textOf opcode fields).toList ++ '\n' :: cs)
      (.ident opcode.mnemonic :: ts ++ .newline :: us) := by
  obtain ⟨hends, hfields⟩ := Reads.fields h (endsWord_newline cs) hreads.newline
  rw [Instruction.textOf, String.toList_append, List.append_assoc]
  exact Reads.word opcode.spells_mnemonic hends hfields

/-- An instruction in front of a text is a line of the tokens that its fields are shown as. -/
theorem Lexer.Reads.instructionLine {opcode : Opcode} {fields : List Field} {ts us : List Token}
    {text : String} (h : List.Forall₂ Field.Shows fields ts) (hreads : Reads text.toList us) :
    Reads (Instruction.textOf opcode fields ++ "\n" ++ text).toList
      (.ident opcode.mnemonic :: ts ++ .newline :: us) := by
  have htext : (Instruction.textOf opcode fields ++ "\n" ++ text).toList =
      (Instruction.textOf opcode fields).toList ++ '\n' :: text.toList := by
    simp
  rw [htext]
  exact Reads.instruction h hreads

/-- A comment in front of a text is a blank line. -/
theorem Lexer.Reads.commentLine {comment text : String} {ts : List Token}
    (hcomment : '\n' ∉ comment.toList) (hreads : Reads text.toList ts) :
    Reads (";" ++ " " ++ comment ++ "\n" ++ text).toList (.newline :: ts) := by
  have htext : (";" ++ " " ++ comment ++ "\n" ++ text).toList =
      ';' :: (' ' :: comment.toList) ++ '\n' :: text.toList := by
    simp
  rw [htext]
  exact Reads.comment (by simpa using hcomment) hreads.newline

theorem isLineEnd_of_shows {fields : List Field} {ts : List Token}
    (h : List.Forall₂ Field.Shows fields ts) : ∀ t ∈ ts, t.isLineEnd = false := by
  induction h with
  | nil => exact List.forall_mem_nil _
  | cons hfield _ ih =>
    obtain ⟨cs, -, hspells⟩ := hfield
    exact List.forall_mem_cons.mpr ⟨hspells.wellFormed.isLineEnd, ih⟩

/-- A line that an instruction is written on goes on to its end. -/
theorem isLineEnd_of_instruction {opcode : Opcode} {fields : List Field} {ts : List Token}
    {first : Located} {words : List Located} (h : List.Forall₂ Field.Shows fields ts)
    (hfirst : first.token = .ident opcode.mnemonic) (hwords : words.map (·.token) = ts) :
    ∀ t ∈ first :: words, t.token.isLineEnd = false := by
  refine List.forall_mem_cons.mpr ⟨by rw [hfirst]; rfl, fun t ht ↦ ?_⟩
  exact isLineEnd_of_shows h _ (hwords ▸ List.mem_map_of_mem ht)

theorem ReadContext.types_after (context : ReadContext) (i : Instruction) :
    (context.after i).types = (context.declare i).types := by
  unfold after declare
  split <;> rfl

/-- A label is read as its register. -/
theorem Instruction.exists_label_of_read {context context' : ReadContext} {first stop : Located}
    {rest : List Located} {i : Instruction}
    (h : (read context first rest stop).result = .ok (i, context')) (hopcode : i.opcode = .opLabel) :
    ∃ r, i = ⟨.opLabel, [.reg r], .integer⟩ := by
  obtain ⟨opcode, fields, -, hlaid, rfl, -⟩ := read_eq_ok.mp h
  obtain ⟨front, ⟨values, mid⟩, back, hfixed, htail, rfl⟩ := Transcript.bind_eq_ok.mp hlaid
  obtain rfl : opcode = .opLabel := hopcode
  obtain ⟨item, _, _, _, _, rfl, rfl, hlabel, hnone⟩ := Supply.fixedOperands_cons_eq_ok.mp hfixed
  obtain ⟨rfl, -⟩ := Transcript.pure_eq_ok.mp hnone
  obtain ⟨rfl, -⟩ := Transcript.pure_eq_ok.mp htail
  cases hlabel with
  | @id label => exact ⟨label, rfl⟩

/-- A label is read as its register, and a function end as nothing more. -/
theorem Instruction.regular_of_read {context context' : ReadContext} {first stop : Located}
    {rest : List Located} {i : Instruction}
    (h : (read context first rest stop).result = .ok (i, context')) : i.Regular := by
  constructor
  · intro r hopcode hr
    obtain ⟨label, rfl⟩ := exists_label_of_read h hopcode
    cases hr
    rfl
  · intro hopcode
    obtain ⟨opcode, fields, -, hlaid, rfl, -⟩ := read_eq_ok.mp h
    obtain ⟨front, ⟨values, mid⟩, back, hfixed, htail, rfl⟩ := Transcript.bind_eq_ok.mp hlaid
    obtain rfl : opcode = .opFunctionEnd := hopcode
    obtain ⟨rfl, -⟩ := Transcript.pure_eq_ok.mp hfixed
    obtain ⟨rfl, -⟩ := Transcript.pure_eq_ok.mp htail
    rfl

/-! ## Lines -/

namespace Module

/-- A line is read by reading its instruction and adding it. -/
theorem readLines_cons_eq_ok {context : ReadContext} {a a' : Assembly} {first stop : Located}
    {rest : List Located} {lines : List Line} :
    (readLines context a (⟨first :: rest, stop⟩ :: lines)).result = .ok a' ↔
      ∃ i context' b, (Instruction.read context first rest stop).result = .ok (i, context') ∧
        a.Adds i b ∧ (readLines context' b lines).result = .ok a' := by
  simp only [readLines, Transcript.result_bind, bind_eq_ok, ← Assembly.add_eq_ok]
  constructor
  · rintro ⟨⟨i, context'⟩, hread, hadd⟩
    cases hb : a.add i with
    | error reason =>
      simp only [hb] at hadd
      cases hadd
    | ok b =>
      simp only [hb] at hadd
      exact ⟨i, context', b, hread, hb, hadd⟩
  · rintro ⟨i, context', b, hread, hb, hlines⟩
    exact ⟨(i, context'), hread, by simp only [hb, hlines]⟩

/-- A text from which the given instructions are read, in the place that a context describes. -/
def Restores (context : ReadContext) (text : String) (instrs : List Instruction) : Prop :=
  ∃ ts, Reads text.toList ts ∧ ∀ located : List Located, located.map (·.token) = ts →
    ∀ a a', instrs.foldlM Assembly.add a = .ok a' →
      (readLines context a (Line.split located)).result = .ok a'

theorem restores_empty (context : ReadContext) : Restores context "" [] := by
  refine ⟨[.eof], Reads.nil, fun located hlocated a a' ha ↦ ?_⟩
  cases ha
  obtain ⟨stop, more, rfl, hstop, hmore⟩ := List.map_eq_cons_iff.mp hlocated
  rw [List.map_eq_nil_iff.mp hmore, Line.split_cons (by rw [hstop]; rfl)]
  rfl

/-- A comment in front of a text changes nothing about what is read from it. -/
theorem Restores.comment {context : ReadContext} {text : String} {instrs : List Instruction}
    (h : Restores context text instrs) {comment : String} (hcomment : '\n' ∉ comment.toList) :
    Restores context (";" ++ " " ++ comment ++ "\n" ++ text) instrs := by
  obtain ⟨ts, hreads, hlines⟩ := h
  refine ⟨.newline :: ts, .commentLine hcomment hreads, fun located hlocated ↦ ?_⟩
  obtain ⟨stop, more, rfl, hstop, hmore⟩ := List.map_eq_cons_iff.mp hlocated
  rw [Line.split_cons (by rw [hstop]; rfl)]
  exact hlines more hmore

/-- An instruction in front of a text is read before what is read from the text. -/
theorem Restores.instruction {context : ReadContext} {i : Instruction} {text : String}
    {instrs : List Instruction} {fields : List Field} {ts : List Token}
    (h : Restores (context.after i) text instrs) (hfields : List.Forall₂ Field.Shows fields ts)
    (hread : ∀ first rest stop, first.token = .ident i.opcode.mnemonic →
      rest.map (·.token) = ts →
        (Instruction.read context first rest stop).result = .ok (i, context.after i)) :
    Restores context (Instruction.textOf i.opcode fields ++ "\n" ++ text) (i :: instrs) := by
  obtain ⟨us, hreads, hlines⟩ := h
  refine ⟨_, .instructionLine hfields hreads, fun located hlocated a a' ha ↦ ?_⟩
  obtain ⟨line, rest, rfl, hline, hrest⟩ := List.map_eq_append_iff.mp hlocated
  obtain ⟨first, words, rfl, hfirst, hwords⟩ := List.map_eq_cons_iff.mp hline
  obtain ⟨stop, more, rfl, hstop, hmore⟩ := List.map_eq_cons_iff.mp hrest
  obtain ⟨b, hadds, hfold⟩ := Assembly.foldlM_add_cons.mp ha
  rw [Line.split_append (isLineEnd_of_instruction hfields hfirst hwords) (by rw [hstop]; rfl)]
  exact readLines_cons_eq_ok.mpr
    ⟨i, context.after i, b, hread _ _ _ hfirst hwords, hadds, hlines more hmore b a' hfold⟩

/-- The last line of a text needs no line break, and what it declares is not needed any more. -/
theorem restores_lastLine {context : ReadContext} {i : Instruction} {fields : List Field}
    {ts : List Token} (hfields : List.Forall₂ Field.Shows fields ts)
    (hread : ∀ first rest stop, first.token = .ident i.opcode.mnemonic →
      rest.map (·.token) = ts →
        ∃ after, (Instruction.read context first rest stop).result = .ok (i, after)) :
    Restores context (Instruction.textOf i.opcode fields) [i] := by
  obtain ⟨hends, hshown⟩ := Reads.fields hfields endsWord_nil Reads.nil
  have hreads := Reads.word i.opcode.spells_mnemonic hends hshown
  rw [List.append_nil, ← String.toList_append] at hreads
  refine ⟨_, hreads, fun located hlocated a a' ha ↦ ?_⟩
  obtain ⟨first, more, rfl, hfirst, hmore⟩ := List.map_eq_cons_iff.mp hlocated
  obtain ⟨words, last, rfl, hwords, hlast⟩ := List.map_eq_append_iff.mp hmore
  obtain ⟨stop, nothing, rfl, hstop, hnothing⟩ := List.map_eq_cons_iff.mp hlast
  obtain rfl := List.map_eq_nil_iff.mp hnothing
  obtain ⟨b, hadds, hfold⟩ := Assembly.foldlM_add_cons.mp ha
  cases hfold
  obtain ⟨after, hi⟩ := hread first words stop hfirst hwords
  have hline := isLineEnd_of_instruction hfields hfirst hwords
  rw [← List.cons_append, Line.split_append hline (by rw [hstop]; rfl)]
  exact readLines_cons_eq_ok.mpr ⟨i, after, a', hi, hadds, rfl⟩

end Module

/-! ## Items -/

def Item.instr? : Item → Option Instruction
  | comment _ => none
  | instruction _ i => some i

theorem Item.filterMap_zipIdx (item : Instruction × Nat → Item)
    (hitem : ∀ p, (item p).instr? = some p.1) (instrs : List Instruction) :
    (instrs.zipIdx.map item).filterMap instr? = instrs := by
  have hinstr : instr? ∘ item = fun p ↦ some p.1 := funext hitem
  rw [List.filterMap_map, hinstr, List.filterMap_eq_map', List.zipIdx_map_fst]

theorem Block.filterMap_items (b : Block) (function : String) :
    (b.items function).filterMap Item.instr? = b.instructions :=
  congrArg (b.labelInstr :: ·) (Item.filterMap_zipIdx _ (fun _ ↦ rfl) b.instrs)

theorem Function.filterMap_items (f : Function) (comments : Bool) :
    (f.items comments).filterMap Item.instr? = f.instructions := by
  have hparams := Item.filterMap_zipIdx
    (fun p ↦ .instruction (.param f.displayName p.2) p.1) (fun _ ↦ rfl) f.params
  have hblocks : (f.blocks.flatMap (·.items f.displayName)).filterMap Item.instr? =
      f.blocks.flatMap Block.instructions := by
    rw [List.filterMap_flatMap]
    exact congrArg (f.blocks.flatMap ·) (funext fun b ↦ b.filterMap_items _)
  cases comments <;>
    simp [items, instructions, openInstructions, List.filterMap_cons, Item.instr?, hparams, hblocks]

namespace Module

/-- The lines of a module hold its instructions in order, with comments or without. -/
theorem filterMap_items (m : Module) (comments : Bool) :
    (m.items comments).filterMap Item.instr? = m.instructions := by
  have hglobals := Item.filterMap_zipIdx
    (fun p ↦ .instruction (.global p.2 p.1.opcode) p.1) (fun _ ↦ rfl) m.globals
  have hfunctions : (m.functions.flatMap (·.items comments)).filterMap Item.instr? =
      m.functions.flatMap Function.instructions := by
    rw [List.filterMap_flatMap]
    exact congrArg (m.functions.flatMap ·) (funext fun f ↦ f.filterMap_items _)
  cases comments <;> simp [items, instructions, List.filterMap_cons, Item.instr?, hglobals, hfunctions]

/-- An instruction is written if it can be laid out, and the rest after it. -/
theorem writeItems_instruction_eq_ok {site : Site} {i : Instruction} {items : List Item}
    {out : String} {registry : Registry} {written : String × Registry} :
    (writeItems out registry (.instruction site i :: items)).result = .ok written ↔
      ∃ fields rest, i.layOut registry = ⟨fields, .ok rest⟩ ∧
        (writeItems (out ++ Instruction.textOf i.opcode fields ++ "\n")
          (registry.after i.opcode fields) items).result = .ok written := by
  simp only [writeItems, Instruction.emit, Transcript.result_bind, Transcript.result_putAll]
  obtain ⟨fields, result⟩ := i.layOut registry
  cases result with
  | error e =>
    constructor
    · intro h
      cases h
    · rintro ⟨_, _, ⟨⟩, -⟩
  | ok rest =>
    constructor
    · exact fun h ↦ ⟨fields, rest, rfl, h⟩
    · rintro ⟨_, _, ⟨⟩, h⟩
      exact h

/-- Instructions that are legible one after the other are written, and restored from what is
written. -/
theorem exists_writeItems {items : List Item} {context : ReadContext}
    (hlegible : LegibleFrom context (items.filterMap Item.instr?))
    (hcomments : ∀ text, .comment text ∈ items → '\n' ∉ text.toList) (out : String) :
    ∃ text registry, (writeItems out context.registry items).result = .ok (out ++ text, registry) ∧
      Restores context text (items.filterMap Item.instr?) := by
  induction items generalizing context out with
  | nil => exact ⟨"", context.registry, by rw [String.append_empty]; rfl, restores_empty context⟩
  | cons item items ih =>
    have hmore : ∀ text, .comment text ∈ items → '\n' ∉ text.toList :=
      fun text htext ↦ hcomments text (List.mem_cons_of_mem _ htext)
    cases item with
    | comment comment =>
      obtain ⟨text, registry, hwrite, hrestores⟩ :=
        ih hlegible hmore (out ++ ";" ++ " " ++ comment ++ "\n")
      refine ⟨";" ++ " " ++ comment ++ "\n" ++ text, registry, ?_,
        hrestores.comment (hcomments comment List.mem_cons_self)⟩
      rw [writeItems]
      simp only [String.append_assoc] at hwrite ⊢
      exact hwrite
    | instruction site i =>
      obtain ⟨⟨fields, ts, hlaid, hts, hread⟩, hlegible⟩ := hlegible
      obtain ⟨text, registry, hwrite, hrestores⟩ :=
        ih hlegible hmore (out ++ Instruction.textOf i.opcode fields ++ "\n")
      refine ⟨Instruction.textOf i.opcode fields ++ "\n" ++ text, registry, ?_,
        hrestores.instruction hts hread⟩
      refine writeItems_instruction_eq_ok.mpr ⟨fields, [], hlaid, ?_⟩
      rw [ReadContext.registry_after hlaid] at hwrite
      simpa only [String.append_assoc] using hwrite

end Module

/-! ## Comments -/

theorem newline_notMem_append {front text : String} (hfront : '\n' ∉ front.toList)
    (htext : '\n' ∉ text.toList) : '\n' ∉ (front ++ text).toList := by
  rw [String.toList_append, List.mem_append]
  exact not_or_intro hfront htext

theorem newline_notMem_text (r : Reg) : '\n' ∉ r.text.toList := by
  refine newline_notMem_append (by decide) fun hmem ↦ ?_
  have hdigit : '\n' ∈ Nat.toDigits 10 r.number := by
    rw [← Nat.toList_repr]
    exact hmem
  exact Bool.false_ne_true (Lexer.isDigit_of_mem_toDigits_ten hdigit)

/-- A function is called by its name, by its register, or not at all. -/
theorem Function.newline_notMem_displayName {f : Function}
    (h : ∀ given ∈ f.name, '\n' ∉ given.toList) : '\n' ∉ f.displayName.toList := by
  rw [Function.displayName]
  cases hname : f.name with
  | some given => exact h given hname
  | none =>
    cases f.result? with
    | some r => exact newline_notMem_text r
    | none => decide

namespace Module

/-! ## Whole modules -/

/-- A module is read if its lines can be read and no function is left open. -/
theorem read_eq_ok {source name : String} {m : Module} :
    (read source name).result = .ok m ↔
      ∃ ts a, tokenize source = .ok ts ∧ (readLines {} {} (Line.split ts)).result = .ok a ∧
        a.openFunction = none ∧ m = nameFunctions ⟨name, a.globals, a.functions⟩ := by
  simp only [read_eq_readLines, Transcript.result_bind, bind_eq_ok]
  constructor
  · rintro ⟨ts, hts, a, ha, hm⟩
    cases hopen : a.openFunction with
    | none =>
      simp only [hopen] at hm
      cases hm
      exact ⟨ts, a, hts, ha, hopen, rfl⟩
    | some f =>
      simp only [hopen] at hm
      cases hm
  · rintro ⟨ts, a, hts, ha, hopen, rfl⟩
    refine ⟨ts, hts, a, ha, ?_⟩
    simp only [hopen]
    rfl

/-- A text that restores instructions is read as the module that they are assembled into. -/
theorem Restores.read {text : String} {instrs : List Instruction} {a : Assembly}
    (h : Restores {} text instrs) (hadds : instrs.foldlM Assembly.add {} = .ok a)
    (hopen : a.openFunction = none) (name : String) :
    (Module.read text name).result = .ok (nameFunctions ⟨name, a.globals, a.functions⟩) := by
  obtain ⟨ts, hreads, hlines⟩ := h
  obtain ⟨located, hlocated, hts⟩ := hreads 1
  exact read_eq_ok.mpr ⟨located, a, hlocated, hlines located hts {} a hadds, hopen, rfl⟩

/-- A module whose functions have the names that its global instructions give them. -/
def Named (m : Module) : Prop := ∀ f ∈ m.functions, f.name = f.result?.bind m.givenName?

/-- A name that is given takes the place of the one that a function has. -/
theorem nameFunctions_eq (m : Module) :
    nameFunctions m = { m with functions := m.functions.map fun f ↦
      { f with name := (f.result?.bind m.givenName?).or f.name } } := by
  refine congrArg (fun functions ↦ { m with functions := functions })
    (List.map_congr_left fun f _ ↦ ?_)
  cases f.result?.bind m.givenName? <;> rfl

theorem mem_functions_nameFunctions {m : Module} {g : Function}
    (h : g ∈ (nameFunctions m).functions) :
    ∃ f ∈ m.functions, g = { f with name := (f.result?.bind m.givenName?).or f.name } := by
  rw [nameFunctions_eq] at h
  obtain ⟨f, hf, rfl⟩ := List.mem_map.mp h
  exact ⟨f, hf, rfl⟩

theorem flatMap_instructions_nameFunctions (m : Module) :
    (nameFunctions m).functions.flatMap Function.instructions =
      m.functions.flatMap Function.instructions := by
  rw [nameFunctions_eq, List.flatMap_map]
  rfl

/-- Naming the functions changes no instruction. -/
theorem instructions_nameFunctions (m : Module) :
    (nameFunctions m).instructions = m.instructions :=
  congrArg (m.globals ++ ·) m.flatMap_instructions_nameFunctions

/-- Naming functions anew changes nothing where they have their names. -/
theorem nameFunctions_of_named {m : Module} (hm : m.Named) :
    nameFunctions { m with functions := m.functions.map fun f ↦ { f with name := none } } = m := by
  rw [nameFunctions_eq, List.map_map]
  refine congrArg (fun functions ↦ { m with functions := functions })
    ((List.map_congr_left fun f hf ↦ ?_).trans m.functions.map_id)
  exact congrArg (fun name ↦ { f with name := name }) (Option.or_none.trans (hm f hf).symm)

/-- A comment says what the module or a function is called. -/
theorem eq_of_comment_mem_items {m : Module} {comments : Bool} {text : String}
    (h : .comment text ∈ m.items comments) :
    comments = true ∧ (text = "SPIR-V" ∨ text = "Module: " ++ m.name ∨ ∃ f ∈ m.functions,
      text = "-- Begin function " ++ f.displayName ∨ text = "-- End function") := by
  cases comments with
  | false => simp [items, Function.items, Block.items] at h
  | true => exact ⟨rfl, by simpa [items, Function.items, Block.items] using h⟩

/-- A comment stays on its line if no name in it breaks the line. -/
theorem newline_notMem_of_comment_mem {m : Module} {comments : Bool} {text : String}
    (h : comments = true → '\n' ∉ m.name.toList ∧
      ∀ f ∈ m.functions, ∀ given ∈ f.name, '\n' ∉ given.toList)
    (htext : .comment text ∈ m.items comments) : '\n' ∉ text.toList := by
  obtain ⟨hcomments, hcases⟩ := eq_of_comment_mem_items htext
  obtain ⟨hname, hnames⟩ := h hcomments
  rcases hcases with rfl | rfl | ⟨f, hf, rfl | rfl⟩
  · decide
  · exact newline_notMem_append (by decide) hname
  · exact newline_notMem_append (by decide) (Function.newline_notMem_displayName (hnames f hf))
  · decide

theorem write_eq_ok {m : Module} {comments : Bool} {text : String} :
    (m.write comments).result = .ok text ↔
      ∃ registry, (writeItems "" .empty (m.items comments)).result = .ok (text, registry) := by
  simp only [write, Transcript.result_bind, bind_eq_ok]
  constructor
  · rintro ⟨⟨written, registry⟩, h, _, _, ⟨⟩⟩
    exact ⟨registry, h⟩
  · rintro ⟨registry, h⟩
    exact ⟨(text, registry), h, (), rfl, rfl⟩

/-- A module that is written is read back, where its comments end with their lines. -/
theorem exists_write_read {m : Module} {comments : Bool} (hplaced : m.WellPlaced)
    (hnamed : m.Named) (hlegible : LegibleFrom {} m.instructions)
    (hcomments : ∀ text, .comment text ∈ m.items comments → '\n' ∉ text.toList) :
    ∃ text, (m.write comments).result = .ok text ∧ (read text m.name).result = .ok m := by
  rw [← m.filterMap_items comments] at hlegible
  obtain ⟨text, registry, hwrite, hrestores⟩ := exists_writeItems hlegible hcomments ""
  rw [String.empty_append] at hwrite
  refine ⟨text, write_eq_ok.mpr ⟨registry, hwrite⟩, ?_⟩
  rw [m.filterMap_items comments] at hrestores
  rw [hrestores.read (foldlM_add_instructions hplaced) rfl m.name]
  exact congrArg Except.ok (nameFunctions_of_named hnamed)

/-! ## Sources -/

/-- The instructions on lines, up to the first line that none can be read from. -/
def lineInstructions (context : ReadContext) : List Line → List Instruction
  | [] => []
  | ⟨[], _⟩ :: lines => lineInstructions context lines
  | ⟨first :: rest, stop⟩ :: lines =>
    match (Instruction.read context first rest stop).result with
    | .ok (i, context) => i :: lineInstructions context lines
    | .error _ => []

def sourceInstructions (source : String) : List Instruction :=
  match tokenize source with
  | .ok ts => lineInstructions {} (Line.split ts)
  | .error _ => []

theorem sourceInstructions_eq {source : String} {ts : List Located}
    (h : tokenize source = .ok ts) :
    sourceInstructions source = lineInstructions {} (Line.split ts) := by
  simp only [sourceInstructions, h]

theorem lineInstructions_cons {context context' : ReadContext} {first stop : Located}
    {rest : List Located} {i : Instruction}
    (h : (Instruction.read context first rest stop).result = .ok (i, context'))
    (lines : List Line) : lineInstructions context (⟨first :: rest, stop⟩ :: lines) =
      i :: lineInstructions context' lines := by
  simp only [lineInstructions, h]

/-- Whether the floating-point constants among instructions have widths that numbers are stored
in. -/
def storesFloats (context : ReadContext) : List Instruction → Bool
  | [] => true
  | i :: instrs =>
    (context.floatWidth? i).all (fun width ↦ width == 16 || width == 32 || width == 64) &&
      storesFloats (context.declare i) instrs

/-- Only the types of a context matter to constants. -/
theorem storesFloats_congr {context context' : ReadContext} (h : context.types = context'.types)
    (instrs : List Instruction) : storesFloats context instrs = storesFloats context' instrs := by
  induction instrs generalizing context context' with
  | nil => rfl
  | cons i instrs ih =>
    have hdeclare : (context.declare i).types = (context'.declare i).types := by
      unfold ReadContext.declare
      split <;> simp [h]
    rw [storesFloats, storesFloats, ih hdeclare, ReadContext.floatWidth?, ReadContext.floatWidth?, h]

/-- The instructions on lines that can be read are added one after the other. -/
theorem foldlM_add_lineInstructions {context : ReadContext} {a a' : Assembly} {lines : List Line}
    (h : (readLines context a lines).result = .ok a') :
    (lineInstructions context lines).foldlM Assembly.add a = .ok a' := by
  induction lines generalizing context a with
  | nil =>
    cases h
    rfl
  | cons line lines ih =>
    obtain ⟨tokens, stop⟩ := line
    cases tokens with
    | nil => exact ih h
    | cons first rest =>
      obtain ⟨i, context', b, hread, hadds, hmore⟩ := readLines_cons_eq_ok.mp h
      rw [lineInstructions_cons hread]
      exact Assembly.foldlM_add_cons.mpr ⟨b, hadds, ih hmore⟩

/-- Every one of the instructions is read from a line. -/
theorem exists_read_of_mem_lineInstructions {context : ReadContext} {lines : List Line}
    {i : Instruction} (hi : i ∈ lineInstructions context lines) :
    ∃ before after first rest stop, ⟨first :: rest, stop⟩ ∈ lines ∧
      (Instruction.read before first rest stop).result = .ok (i, after) := by
  induction lines generalizing context with
  | nil => cases hi
  | cons line lines ih =>
    obtain ⟨tokens, stop⟩ := line
    cases tokens with
    | nil =>
      obtain ⟨before, after, first, rest, stop, hline, hread⟩ := ih hi
      exact ⟨before, after, first, rest, stop, List.mem_cons_of_mem _ hline, hread⟩
    | cons first rest =>
      cases hread : (Instruction.read context first rest stop).result with
      | error e =>
        simp only [lineInstructions, hread] at hi
        cases hi
      | ok read =>
        obtain ⟨j, context'⟩ := read
        rw [lineInstructions_cons hread] at hi
        rcases List.mem_cons.mp hi with rfl | hi
        · exact ⟨context, context', first, rest, stop, List.mem_cons_self, hread⟩
        · obtain ⟨before, after, first, rest, stop, hline, hread⟩ := ih hi
          exact ⟨before, after, first, rest, stop, List.mem_cons_of_mem _ hline, hread⟩

theorem regular_of_mem_lineInstructions {context : ReadContext} {lines : List Line} :
    ∀ i ∈ lineInstructions context lines, i.Regular := by
  intro i hi
  obtain ⟨_, _, _, _, _, -, hread⟩ := exists_read_of_mem_lineInstructions hi
  exact Instruction.regular_of_read hread

theorem legibleFrom_lineInstructions {context : ReadContext} {a a' : Assembly} {lines : List Line}
    (h : (readLines context a lines).result = .ok a')
    (hlines : ∀ line ∈ lines, ∀ t ∈ line.tokens, WellFormed t.token)
    (hfloats : storesFloats context (lineInstructions context lines) = true) :
    LegibleFrom context (lineInstructions context lines) := by
  induction lines generalizing context a with
  | nil => trivial
  | cons line lines ih =>
    obtain ⟨tokens, stop⟩ := line
    have hmore : ∀ line ∈ lines, ∀ t ∈ line.tokens, WellFormed t.token :=
      fun line hline ↦ hlines line (List.mem_cons_of_mem _ hline)
    cases tokens with
    | nil => exact ih h hmore hfloats
    | cons first rest =>
      obtain ⟨i, context', b, hread, -, hrest⟩ := readLines_cons_eq_ok.mp h
      rw [lineInstructions_cons hread] at hfloats ⊢
      obtain ⟨hwidth, hfloats⟩ := Bool.and_eq_true_iff.mp hfloats
      obtain ⟨hlegible, rfl⟩ := Instruction.legible_of_read hread
        (fun t ht ↦ hlines _ List.mem_cons_self t (List.mem_cons_of_mem _ ht)) (by
          intro width hmem
          rw [Option.mem_def.mp hmem] at hwidth
          simpa [or_assoc] using hwidth)
      refine ⟨hlegible, ih hrest hmore ?_⟩
      rw [storesFloats_congr (context.types_after i), hfloats]

/-- What is read is in its place and has its names. -/
theorem wellPlaced_of_read {source name : String} {m : Module}
    (h : (read source name).result = .ok m) : m.WellPlaced ∧ m.Named ∧ m.name = name := by
  obtain ⟨ts, a, -, ha, -, rfl⟩ := read_eq_ok.mp h
  have hplaced : a.WellPlaced :=
    Assembly.wellPlaced_of_foldlM_add (foldlM_add_lineInstructions ha) Assembly.wellPlaced_empty
  refine ⟨⟨hplaced.globals, fun g hg ↦ ?_⟩, fun g hg ↦ ?_, rfl⟩
  · obtain ⟨f, hf, rfl⟩ := mem_functions_nameFunctions hg
    obtain ⟨⟨hheader, hparams, hbody⟩, -⟩ := hplaced.functions f hf
    exact ⟨hheader, hparams, hbody⟩
  · obtain ⟨f, hf, rfl⟩ := mem_functions_nameFunctions hg
    obtain ⟨-, hname⟩ := hplaced.functions f hf
    rw [hname, Option.or_none]
    rfl

/-- A source with its global instructions first is read as a module whose instructions are, in the
order in which they are written, those of the source. -/
theorem instructions_of_read {source name : String} {m : Module}
    (h : (read source name).result = .ok m)
    (hfirst : Opcode.globalsFirst ((sourceInstructions source).map Instruction.opcode) = true) :
    m.instructions = sourceInstructions source := by
  obtain ⟨ts, a, hts, ha, hopen, rfl⟩ := read_eq_ok.mp h
  rw [sourceInstructions_eq hts] at hfirst ⊢
  have hinstrs := Assembly.instructions_of_foldlM_add (foldlM_add_lineInstructions ha)
    regular_of_mem_lineInstructions rfl rfl hfirst
  rw [instructions_nameFunctions]
  simpa [Assembly.instructions, hopen, instructions] using hinstrs

/-- Every instruction of a source that is read is legible in its place, if its floating-point
constants have widths that numbers are stored in. -/
theorem legibleFrom_sourceInstructions {source name : String} {m : Module}
    (h : (read source name).result = .ok m)
    (hfloats : storesFloats {} (sourceInstructions source) = true) :
    LegibleFrom {} (sourceInstructions source) := by
  obtain ⟨ts, a, hts, ha, -, -⟩ := read_eq_ok.mp h
  rw [sourceInstructions_eq hts] at hfloats ⊢
  refine legibleFrom_lineInstructions ha (fun line hline t ht ↦ ?_) hfloats
  obtain ⟨hmem, hend⟩ := Line.mem_split hline t ht
  exact wellFormed_of_tokens hts t hmem hend

/-- Reading and writing are inverse: a module that was read, from a source with its global
instructions first and floating-point constants of stored widths, is read again from what is
written for it. -/
theorem reads_back_as_written {source name : String} {m : Module}
    (hread : (read source name).result = .ok m)
    (hfirst : Opcode.globalsFirst ((sourceInstructions source).map Instruction.opcode) = true)
    (hfloats : storesFloats {} (sourceInstructions source) = true) :
    ∃ text, (m.write false).result = .ok text ∧ (read text name).result = .ok m := by
  obtain ⟨hplaced, hnamed, rfl⟩ := wellPlaced_of_read hread
  have hlegible := legibleFrom_sourceInstructions hread hfloats
  rw [← instructions_of_read hread hfirst] at hlegible
  refine exists_write_read hplaced hnamed hlegible fun text htext ↦ ?_
  obtain ⟨hcomments, -⟩ := eq_of_comment_mem_items htext
  cases hcomments

/-- A source with an import, a quoted name, a comment, a constant that is not a number, a mask and
an extended instruction. -/
def sampleSource : String := String.join [
  "OpExtInstImport %1 \"OpenCL.std\"\n",
  "OpName %4 \"a \\\"name\\\"\"\n",
  "OpTypeFloat %2 32 ; comment\n",
  "OpConstant %2 %5 0x7fc00000\n",
  "OpFunction %2 %4 Inline|Pure %3\n",
  "OpLabel %6\n",
  "OpExtInst %2 %7 %1 fma %5 %5 %5\n",
  "OpReturnValue %7\n",
  "OpFunctionEnd\n"]

def sample : Module where
  name := "sample"
  globals := [
    ⟨.opExtInstImport, .reg ⟨0⟩ :: StringWords.operands "OpenCL.std", .integer⟩,
    ⟨.opName, .reg ⟨3⟩ :: StringWords.operands "a \"name\"", .integer⟩,
    ⟨.opTypeFloat, [.reg ⟨1⟩, .imm 32], .integer⟩,
    ⟨.opConstant, [.reg ⟨1⟩, .reg ⟨4⟩, .imm 0x7fc00000], .float⟩]
  functions := [
    { header := ⟨.opFunction, [.reg ⟨1⟩, .reg ⟨3⟩, .imm 5, .reg ⟨2⟩], .integer⟩
      name := some "a \"name\""
      blocks := [⟨⟨5⟩, [
        ⟨.opExtInst, [.reg ⟨1⟩, .reg ⟨6⟩, .reg ⟨0⟩, .imm 26, .reg ⟨4⟩, .reg ⟨4⟩, .reg ⟨4⟩], .integer⟩,
        ⟨.opReturnValue, [.reg ⟨6⟩], .integer⟩]⟩] }]

theorem reads_back_as_written_sample :
    (read sampleSource "sample").result = .ok sample ∧
      ∃ text, (sample.write false).result = .ok text ∧
        (read text "sample").result = .ok sample := by
  have hread : (read sampleSource "sample").result = .ok sample := by
    rw [read, tokenize, sampleSource, String.toList_join]
    decide +kernel
  have hinstrs : sourceInstructions sampleSource = sample.instructions := by
    rw [sourceInstructions, tokenize, sampleSource, String.toList_join]
    decide +kernel
  refine ⟨hread, reads_back_as_written hread ?_ ?_⟩
  · rw [hinstrs]
    decide +kernel
  · rw [hinstrs]
    decide +kernel

end Module

end SpirvText
