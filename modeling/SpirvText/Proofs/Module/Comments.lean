import SpirvText.Proofs.Instruction.Relocation
import SpirvText.Proofs.Module.Origin

/-!
# Comments

A comment ends with its line.  Where the text of every comment stays on one line, what is written
with comments and what is written without them are the same lines but for empty ones
(`Module.sameLines_of_writeItems`), and such texts are read alike.
-/

namespace SpirvText

open Lexer

/-! ## The same tokens on other lines -/

inductive SameToken : Located → Located → Prop
  | intro (token : Token) (line line' : Nat) : SameToken ⟨token, line⟩ ⟨token, line'⟩

theorem sameToken_of_eq {t t' : Located} (h : t.token = t'.token) : SameToken t t' := by
  obtain ⟨token, line⟩ := t
  obtain ⟨_, line'⟩ := t'
  cases h
  exact ⟨token, line, line'⟩

theorem forall₂_sameToken {ts ts' : List Located} (h : ts.map (·.token) = ts'.map (·.token)) :
    List.Forall₂ SameToken ts ts' := by
  rw [← List.forall₂_eq_eq_eq, List.forall₂_map_left_iff, List.forall₂_map_right_iff] at h
  exact h.imp fun _ _ ↦ sameToken_of_eq

def SameCause (e e' : ReadError) : Prop := e.cause = e'.cause

/-- An instruction is read alike from lines of the same tokens. -/
theorem Instruction.sameCause_read (context : ReadContext) {first first' stop stop' : Located}
    {rest rest' : List Located} (hfirst : SameToken first first')
    (hrest : List.Forall₂ SameToken rest rest') (hstop : SameToken stop stop') :
    EndAlike SameCause Eq (read context first rest stop).result
      (read context first' rest' stop').result := by
  have hmoved : ∀ t t', SameToken t t' → Located.Moved (fun _ _ ↦ True) t t' := by
    rintro _ _ ⟨token, line, line'⟩
    exact ⟨token, trivial⟩
  refine (endAlike_read context (hmoved _ _ hfirst) (hrest.imp hmoved) (hmoved _ _ hstop)
    fun _ ↦ trivial).imp ?_
  rintro _ _ ⟨cause, -⟩
  rfl

/-! ## The same lines but for empty ones -/

/-- Lines of which those that are not empty hold the same tokens. -/
inductive Line.Alike : List Line → List Line → Prop
  | nil : Alike [] []
  | blank {stop : Located} {lines lines' : List Line} : Alike lines lines' →
    Alike (⟨[], stop⟩ :: lines) lines'
  | both {stop stop' : Located} {lines lines' : List Line} : Alike lines lines' →
    Alike (⟨[], stop⟩ :: lines) (⟨[], stop'⟩ :: lines')
  | line {first first' stop stop' : Located} {rest rest' : List Located}
    {lines lines' : List Line} : SameToken first first' → List.Forall₂ SameToken rest rest' →
    SameToken stop stop' → Alike lines lines' →
    Alike (⟨first :: rest, stop⟩ :: lines) (⟨first' :: rest', stop'⟩ :: lines')

namespace Module

/-- Blank lines do not matter to what is read, nor do the numbers of lines to what goes wrong. -/
theorem endAlike_readLines {lines lines' : List Line} (h : Line.Alike lines lines')
    (context : ReadContext) (a : Assembly) :
    EndAlike SameCause Eq (readLines context a lines).result
      (readLines context a lines').result := by
  induction h generalizing context a with
  | nil => exact .ok rfl
  | blank _ ih => exact ih context a
  | both _ ih => exact ih context a
  | line hfirst hrest hstop _ ih =>
    simp only [readLines, Transcript.result_bind]
    refine (Instruction.sameCause_read context hfirst hrest hstop).bind ?_
    rintro ⟨i, context⟩ _ rfl
    dsimp only
    split
    · exact .error rfl
    · exact ih _ _

/-- The same instructions are on lines that are alike. -/
theorem lineInstructions_congr {lines lines' : List Line} (h : Line.Alike lines lines')
    (context : ReadContext) : lineInstructions context lines = lineInstructions context lines' := by
  induction h generalizing context with
  | nil => rfl
  | blank _ ih => exact ih context
  | both _ ih => exact ih context
  | line hfirst hrest hstop _ ih =>
    have hread := Instruction.sameCause_read context hfirst hrest hstop
    rcases (endAlike_iff ..).mp hread with ⟨read, _, rfl, hx, hy⟩ | ⟨_, _, -, hx, hy⟩
    · simp only [lineInstructions, hx, hy, ih]
    · simp only [lineInstructions, hx, hy]

/-- Sources whose lines are alike are read as the same module or fail for the same reason. -/
theorem endAlike_read {source source' : String} {ts ts' : List Located}
    (hts : tokenize source = .ok ts) (hts' : tokenize source' = .ok ts')
    (h : Line.Alike (Line.split ts) (Line.split ts')) (name : String) :
    EndAlike SameCause Eq (read source name).result (read source' name).result := by
  simp only [read_eq_readLines, Transcript.result_bind, hts, hts']
  refine EndAlike.bind (A := fun t t' ↦ t = ts ∧ t' = ts') (.ok ⟨rfl, rfl⟩) ?_
  rintro _ _ ⟨rfl, rfl⟩
  refine (endAlike_readLines h {} {}).bind ?_
  rintro a _ rfl
  split
  · exact .error rfl
  · exact .ok rfl

theorem sourceInstructions_congr {source source' : String} {ts ts' : List Located}
    (hts : tokenize source = .ok ts) (hts' : tokenize source' = .ok ts')
    (h : Line.Alike (Line.split ts) (Line.split ts')) :
    sourceInstructions source = sourceInstructions source' := by
  rw [sourceInstructions_eq hts, sourceInstructions_eq hts']
  exact lineInstructions_congr h {}

/-! ## What is written with comments and without them -/

/-- Two texts with the same tokens but for line ends, the first with more empty lines. -/
def SameLines (text text' : String) : Prop :=
  ∃ ts ts', Reads text.toList ts ∧ Reads text'.toList ts' ∧
    ts.filter (· ≠ .newline) = ts'.filter (· ≠ .newline) ∧
    ∀ located located' : List Located, located.map (·.token) = ts → located'.map (·.token) = ts' →
      Line.Alike (Line.split located) (Line.split located')

/-- Texts with the same lines can both be cut into tokens, and their lines are alike. -/
theorem SameLines.tokenize {text text' : String} (h : SameLines text text') :
    ∃ ts ts', tokenize text = .ok ts ∧ tokenize text' = .ok ts' ∧
      (ts.map (·.token)).filter (· ≠ .newline) = (ts'.map (·.token)).filter (· ≠ .newline) ∧
      Line.Alike (Line.split ts) (Line.split ts') := by
  obtain ⟨_, _, hreads, hreads', hfilter, halike⟩ := h
  obtain ⟨ts, hts, rfl⟩ := hreads 1
  obtain ⟨ts', hts', rfl⟩ := hreads' 1
  exact ⟨ts, ts', hts, hts', hfilter, halike ts ts' rfl rfl⟩

theorem sameLines_empty : SameLines "" "" := by
  refine ⟨[.eof], [.eof], Reads.nil, Reads.nil, rfl, fun located located' h h' ↦ ?_⟩
  obtain ⟨stop, more, rfl, hstop, hmore⟩ := List.map_eq_cons_iff.mp h
  obtain ⟨stop', more', rfl, hstop', hmore'⟩ := List.map_eq_cons_iff.mp h'
  rw [Line.split_cons (by rw [hstop]; rfl), Line.split_cons (by rw [hstop']; rfl),
    List.map_eq_nil_iff.mp hmore, List.map_eq_nil_iff.mp hmore']
  exact .both .nil

/-- A comment that ends with its line is an empty line. -/
theorem SameLines.comment {text text' comment : String} (h : SameLines text text')
    (hcomment : '\n' ∉ comment.toList) :
    SameLines (";" ++ " " ++ comment ++ "\n" ++ text) text' := by
  obtain ⟨ts, ts', hreads, hreads', hfilter, halike⟩ := h
  refine ⟨.newline :: ts, ts', .commentLine hcomment hreads, hreads', hfilter,
    fun located located' h h' ↦ ?_⟩
  obtain ⟨stop, more, rfl, hstop, hmore⟩ := List.map_eq_cons_iff.mp h
  rw [Line.split_cons (by rw [hstop]; rfl)]
  exact .blank (halike more located' hmore h')

/-- An instruction may be written in front of both texts. -/
theorem SameLines.instruction {text text' : String} (h : SameLines text text') (opcode : Opcode)
    {fields : List Field} {us : List Token} (hfields : List.Forall₂ Field.Shows fields us) :
    SameLines (Instruction.textOf opcode fields ++ "\n" ++ text)
      (Instruction.textOf opcode fields ++ "\n" ++ text') := by
  obtain ⟨ts, ts', hreads, hreads', hfilter, halike⟩ := h
  refine ⟨_, _, .instructionLine hfields hreads, .instructionLine hfields hreads', ?_,
    fun located located' h h' ↦ ?_⟩
  · rw [List.filter_append, List.filter_append]
    exact congrArg (_ ++ ·) hfilter
  · obtain ⟨_, back, rfl, hline, hback⟩ := List.map_eq_append_iff.mp h
    obtain ⟨_, back', rfl, hline', hback'⟩ := List.map_eq_append_iff.mp h'
    obtain ⟨first, words, rfl, hfirst, hwords⟩ := List.map_eq_cons_iff.mp hline
    obtain ⟨first', words', rfl, hfirst', hwords'⟩ := List.map_eq_cons_iff.mp hline'
    obtain ⟨stop, more, rfl, hstop, hmore⟩ := List.map_eq_cons_iff.mp hback
    obtain ⟨stop', more', rfl, hstop', hmore'⟩ := List.map_eq_cons_iff.mp hback'
    rw [Line.split_append (isLineEnd_of_instruction hfields hfirst hwords) (by rw [hstop]; rfl),
      Line.split_append (isLineEnd_of_instruction hfields hfirst' hwords') (by rw [hstop']; rfl)]
    exact .line (sameToken_of_eq (hfirst.trans hfirst'.symm))
      (forall₂_sameToken (hwords.trans hwords'.symm)) (sameToken_of_eq (hstop.trans hstop'.symm))
      (halike more more' hmore hmore')

end Module

/-! ## Items -/

def Item.isInstruction (item : Item) : Bool := item.instr?.isSome

theorem Item.filter_zipIdx (item : Instruction × Nat → Item)
    (hitem : ∀ p, (item p).isInstruction = true) (instrs : List Instruction) :
    (instrs.zipIdx.map item).filter isInstruction = instrs.zipIdx.map item := by
  refine List.filter_eq_self.mpr fun entry hentry ↦ ?_
  obtain ⟨p, -, rfl⟩ := List.mem_map.mp hentry
  exact hitem p

theorem Block.filter_items (b : Block) (function : String) :
    (b.items function).filter Item.isInstruction = b.items function :=
  congrArg (_ :: ·) (Item.filter_zipIdx _ (fun _ ↦ rfl) b.instrs)

/-- Without its comments a function is what is written if none are wanted. -/
theorem Function.filter_items (f : Function) :
    (f.items true).filter Item.isInstruction = f.items false := by
  have hparams := Item.filter_zipIdx
    (fun p ↦ .instruction (.param f.displayName p.2) p.1) (fun _ ↦ rfl) f.params
  have hblocks : (f.blocks.flatMap (·.items f.displayName)).filter Item.isInstruction =
      f.blocks.flatMap (·.items f.displayName) := by
    rw [List.filter_flatMap]
    exact congrArg (f.blocks.flatMap ·) (funext fun b ↦ b.filter_items _)
  simp [items, List.filter_cons, Item.isInstruction, Item.instr?, hparams, hblocks]

namespace Module

/-- Without its comments, a module is its instructions. -/
theorem filter_items (m : Module) : (m.items true).filter Item.isInstruction = m.items false := by
  have hglobals := Item.filter_zipIdx
    (fun p ↦ .instruction (.global p.2 p.1.opcode) p.1) (fun _ ↦ rfl) m.globals
  have hfunctions : (m.functions.flatMap (·.items true)).filter Item.isInstruction =
      m.functions.flatMap (·.items false) := by
    rw [List.filter_flatMap]
    exact congrArg (m.functions.flatMap ·) (funext Function.filter_items)
  simp [items, Item.isInstruction, Item.instr?, hglobals, hfunctions]

/-- Instructions that were read are written on the same lines with comments and without them. -/
theorem sameLines_of_writeItems {items : List Item} {out : String} {registry : Registry}
    {written : String × Registry} (hread : ∀ i ∈ items.filterMap Item.instr?, i.WasRead)
    (hcomments : ∀ text, .comment text ∈ items → '\n' ∉ text.toList)
    (h : (writeItems out registry items).result = .ok written) :
    ∃ text text', written.1 = out ++ text ∧ SameLines text text' ∧ ∀ out',
      (writeItems out' registry (items.filter Item.isInstruction)).result =
        .ok (out' ++ text', written.2) := by
  induction items generalizing out registry with
  | nil =>
    cases h
    exact ⟨"", "", String.append_empty.symm, sameLines_empty,
      fun out' ↦ by rw [String.append_empty]; rfl⟩
  | cons item items ih =>
    have hmore : ∀ text, .comment text ∈ items → '\n' ∉ text.toList :=
      fun text htext ↦ hcomments text (List.mem_cons_of_mem _ htext)
    cases item with
    | comment comment =>
      obtain ⟨text, text', htext, hsame, hbare⟩ := ih hread hmore h
      refine ⟨";" ++ " " ++ comment ++ "\n" ++ text, text', ?_,
        hsame.comment (hcomments comment List.mem_cons_self), hbare⟩
      simpa only [TextFormat.assembly, String.append_assoc] using htext
    | instruction site i =>
      obtain ⟨hi, hread⟩ := List.forall_mem_cons.mp hread
      obtain ⟨fields, rest, hlaid, h⟩ := writeItems_instruction_eq_ok.mp h
      obtain ⟨ts, hts⟩ := hi.exists_shows hlaid
      obtain ⟨text, text', htext, hsame, hbare⟩ := ih hread hmore h
      refine ⟨_, _, ?_, hsame.instruction i.opcode hts, fun out' ↦ ?_⟩
      · simpa only [String.append_assoc] using htext
      · refine writeItems_instruction_eq_ok.mpr ⟨fields, rest, hlaid, ?_⟩
        simpa only [String.append_assoc] using
          hbare (out' ++ Instruction.textOf i.opcode fields ++ "\n")

/-- Comments are inert in what is written for a module that was read, where no function has a name
of several lines: the tokens are the same but for line ends, and so are the instructions on them and
the module or the error that is read. -/
theorem comments_are_inert {source name bare commented : String} {m : Module}
    (hread : (read source name).result = .ok m) (hname : '\n' ∉ name.toList)
    (hnames : ∀ f ∈ m.functions, ∀ given ∈ f.name, '\n' ∉ given.toList)
    (hbare : (m.write false).result = .ok bare)
    (hcommented : (m.write true).result = .ok commented) :
    ∃ ts ts', tokenize commented = .ok ts ∧ tokenize bare = .ok ts' ∧
      (ts.map (·.token)).filter (· ≠ .newline) = (ts'.map (·.token)).filter (· ≠ .newline) ∧
      sourceInstructions commented = sourceInstructions bare ∧
      ∀ name', (read commented name').result.mapError ReadError.cause =
        (read bare name').result.mapError ReadError.cause := by
  obtain ⟨registry, hwrite⟩ := write_eq_ok.mp hcommented
  obtain ⟨registry', hwrite'⟩ := write_eq_ok.mp hbare
  obtain ⟨-, -, rfl⟩ := wellPlaced_of_read hread
  obtain ⟨text, text', hcommented, hsame, hwritten⟩ := sameLines_of_writeItems
    (by rw [filterMap_items]; exact wasRead_of_read hread)
    (fun _ ↦ newline_notMem_of_comment_mem fun _ ↦ ⟨hname, hnames⟩) hwrite
  obtain rfl : commented = text := hcommented.trans String.empty_append
  -- without comments the same instructions are written, and so nothing else than `bare`
  have hbare := hwritten ""
  rw [filter_items, hwrite', String.empty_append] at hbare
  obtain rfl : bare = text' := congrArg Prod.fst (Except.ok.inj hbare)
  obtain ⟨ts, ts', hts, hts', hfilter, halike⟩ := hsame.tokenize
  exact ⟨ts, ts', hts, hts', hfilter, sourceInstructions_congr hts hts' halike,
    fun name' ↦ (endAlike_read hts hts' halike name').mapError_eq⟩

/-- A source with a function whose name has a quote, a comment sign and an instruction in it. -/
def quotedSource : String := String.join [
  "OpName %2 \"a\\\"; OpNop\"\n",
  "OpFunction %1 %2 None %1\n",
  "OpFunctionEnd\n"]

def quoted : Module where
  name := "quoted"
  globals := [⟨.opName, .reg ⟨1⟩ :: StringWords.operands "a\"; OpNop", .integer⟩]
  functions := [
    { header := ⟨.opFunction, [.reg ⟨0⟩, .reg ⟨1⟩, .imm 0, .reg ⟨0⟩], .integer⟩
      name := some "a\"; OpNop" }]

def quotedText : String := String.join [
  "; SPIR-V\n",
  "; Module: quoted\n",
  "OpName %2 \"a\\\"; OpNop\"\n",
  "; -- Begin function a\"; OpNop\n",
  "OpFunction %1 %2 None %1\n",
  "OpFunctionEnd\n",
  "; -- End function\n"]

theorem comments_are_inert_quoted :
    (read quotedSource "quoted").result = .ok quoted ∧
      (quoted.write false).result = .ok quotedSource ∧
      (quoted.write true).result = .ok quotedText ∧
      ∃ ts ts', tokenize quotedText = .ok ts ∧ tokenize quotedSource = .ok ts' ∧
        (ts.map (·.token)).filter (· ≠ .newline) = (ts'.map (·.token)).filter (· ≠ .newline) ∧
        sourceInstructions quotedText = sourceInstructions quotedSource ∧
        ∀ name', (read quotedText name').result.mapError ReadError.cause =
          (read quotedSource name').result.mapError ReadError.cause := by
  have hread : (read quotedSource "quoted").result = .ok quoted := by
    rw [read, tokenize, quotedSource, String.toList_join]
    decide +kernel
  have hbare : (quoted.write false).result = .ok quotedSource := by decide +kernel
  have hcommented : (quoted.write true).result = .ok quotedText := by decide +kernel
  exact ⟨hread, hbare, hcommented,
    comments_are_inert hread (by decide) (by decide +kernel) hbare hcommented⟩

/-- A source with a function whose name has an instruction on its second line. -/
def splitSource : String := String.join [
  "OpName %2 \"f\nOpNop\"\n",
  "OpFunction %1 %2 None %1\n",
  "OpFunctionEnd\n"]

def splitModule : Module where
  name := "split"
  globals := [⟨.opName, .reg ⟨1⟩ :: StringWords.operands "f\nOpNop", .integer⟩]
  functions := [
    { header := ⟨.opFunction, [.reg ⟨0⟩, .reg ⟨1⟩, .imm 0, .reg ⟨0⟩], .integer⟩
      name := some "f\nOpNop" }]

def splitText : String := String.join [
  "; SPIR-V\n",
  "; Module: split\n",
  "OpName %2 \"f\nOpNop\"\n",
  "; -- Begin function f\nOpNop\n",
  "OpFunction %1 %2 None %1\n",
  "OpFunctionEnd\n",
  "; -- End function\n"]

/-- The second line of a name is read as an instruction. -/
theorem not_inert_splitSource :
    (read splitSource "split").result = .ok splitModule ∧
      (splitModule.write false).result = .ok splitSource ∧
      (splitModule.write true).result = .ok splitText ∧
      (read splitText "split").result = .ok
        { splitModule with globals := splitModule.globals ++ [⟨.opNop, [], .integer⟩] } := by
  refine ⟨?_, by decide +kernel, by decide +kernel, ?_⟩
  · rw [read, tokenize, splitSource, String.toList_join]
    decide +kernel
  · rw [read, tokenize, splitText, String.toList_join]
    decide +kernel

end Module

end SpirvText
