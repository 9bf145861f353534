import SpirvText.Proofs.Module.RoundTrip
import SpirvText.Proofs.Token.LineByLine

/-!
# Nothing is lost and nothing made up

An instruction is read from the whole of its line and from nothing else: the first token names its
opcode, each of the others is taken for one field, and the token that ends the line does not matter
(`Instruction.fillsLine_of_read`).  The lines of a source make up all of its tokens
(`Line.flatMap_located_split`).  So the instructions of a source that is accepted are what its lines
are made of, and its module holds each of them once and in order: those outside of functions as
global instructions, the others as functions.
-/

namespace SpirvText

open Lexer

/-! ## Fields and items -/

namespace Supply

section Takes

variable {ι ε : Type}

def Takes (s : Supply ι ε) : Field → ι → Prop
  | .reg r, item => s.reg item = .ok r
  | .literal word, item => s.literal item = .ok word
  | .symbol category word, item => s.symbol category item = .ok word
  | .extNumber set word, item => s.extNumber set item = .ok word
  | .text value, item => ∀ items, s.text item items = .ok (value, items)
  | .constant value, item => ∃ type, ∀ items, s.constant type (item :: items) = .ok (value, items)
  | .plain operand, item => s.plain item = .ok operand
  | .hidden operand, item => s.skip item = .ok operand

end Takes

variable {types : List (Reg × ScalarType)} {line : Nat} {stop : Located} {fields : List Field}
  {items rest : List Located}

/-- On a line every field is one token. -/
theorem Offers.exists_takes (h : (ofLine types line stop).Offers fields items rest) :
    ∃ taken, items = taken ++ rest ∧
      List.Forall₂ (ofLine types line stop).Takes fields taken := by
  induction h with
  | nil => exact ⟨[], rfl, .nil⟩
  | reg hitem _ ih | literal hitem _ ih | symbol hitem _ ih | extNumber hitem _ ih
  | plain hitem _ ih =>
    obtain ⟨taken, rfl, htaken⟩ := ih
    exact ⟨_ :: taken, rfl, .cons hitem htaken⟩
  | text hitem _ ih =>
    obtain ⟨htoken, hzero, rfl⟩ := text_eq_ok.mp hitem
    obtain ⟨taken, rfl, htaken⟩ := ih
    exact ⟨_ :: taken, rfl, .cons (fun _ ↦ text_eq_ok.mpr ⟨htoken, hzero, rfl⟩) htaken⟩

/-- What is offered does not depend on where the line begins and ends. -/
theorem Offers.ofLine_congr (h : (ofLine types line stop).Offers fields items rest) (line' : Nat)
    (stop' : Located) : (ofLine types line' stop').Offers fields items rest := by
  induction h with
  | nil items => exact .nil items
  | reg hitem _ ih => exact .reg hitem ih
  | literal hitem _ ih => exact .literal hitem ih
  | symbol hitem _ ih => exact .symbol hitem ih
  | extNumber hitem _ ih => exact .extNumber hitem ih
  | text hitem _ ih => exact .text hitem ih
  | plain hitem _ ih => exact .plain hitem ih

variable {registry : Registry} {opcode : Opcode}

/-- If nothing is left of a line, each of its tokens has been taken for one field. -/
theorem takes_of_layOut
    (h : (ofLine types line stop).layOut registry opcode items = ⟨fields, .ok []⟩) :
    List.Forall₂ (ofLine types line stop).Takes fields items := by
  by_cases hopcode : opcode = .opConstant
  · subst hopcode
    obtain ⟨first, second, more, type, result, value, rfl, htype, hresult, hvalue, rfl⟩ :=
      layOut_opConstant_eq_ok.mp h
    obtain ⟨scalar, t, hscalar, rfl, hliteral⟩ := constant_ofLine_eq_ok.mp hvalue
    refine .cons htype (.cons hresult (.cons ⟨type, fun more ↦ ?_⟩ .nil))
    exact constant_ofLine_eq_ok.mpr ⟨scalar, t, hscalar, rfl, hliteral⟩
  · obtain ⟨hoffers, -⟩ := repeats_layOut (strict_ofLine types line stop)
      (lawful_ofLine types line stop) registry hopcode _ _ _ h
    obtain ⟨taken, rfl, htaken⟩ := hoffers.exists_takes
    rwa [List.append_nil]

/-- What is laid out does not depend on where the line begins and ends. -/
theorem layOut_ofLine_congr
    (h : (ofLine types line stop).layOut registry opcode items = ⟨fields, .ok []⟩) (line' : Nat)
    (stop' : Located) :
    (ofLine types line' stop').layOut registry opcode items = ⟨fields, .ok []⟩ := by
  by_cases hopcode : opcode = .opConstant
  · subst hopcode
    obtain ⟨first, second, more, type, result, value, rfl, htype, hresult, hvalue, rfl⟩ :=
      layOut_opConstant_eq_ok.mp h
    have hvalue' : (ofLine types line' stop').constant type more = .ok (value, []) :=
      constant_ofLine_eq_ok.mpr (constant_ofLine_eq_ok.mp hvalue)
    exact layOut_opConstant_eq_ok.mpr
      ⟨first, second, more, type, result, value, rfl, htype, hresult, hvalue', rfl⟩
  · obtain ⟨hoffers, hrepeat⟩ := repeats_layOut (strict_ofLine types line stop)
      (lawful_ofLine types line' stop') registry hopcode _ _ _ h
    exact hrepeat _ _ (hoffers.ofLine_congr line' stop') (iff_of_true rfl rfl)

end Supply

/-! ## Instructions and lines -/

namespace Instruction

/-- An instruction takes up a line: it is read from its tokens whichever token ends it, the first of
them names the opcode, and each of the others is taken for one field. -/
structure FillsLine (i : Instruction) (context context' : ReadContext) (first : Located)
    (rest : List Located) : Prop where
  read : ∀ stop, (Instruction.read context first rest stop).result = .ok (i, context')
  opcode : opcodeOf first = .ok i.opcode
  fields : ∃ fields, i = .ofFields i.opcode fields ∧
    ∀ stop, List.Forall₂ (Supply.ofLine context.types first.line stop).Takes fields rest

/-- An instruction that is read from a line takes up all of it. -/
theorem fillsLine_of_read {i : Instruction} {context context' : ReadContext} {first stop : Located}
    {rest : List Located}
    (h : (Instruction.read context first rest stop).result = .ok (i, context')) :
    i.FillsLine context context' first rest := by
  obtain ⟨opcode, fields, hopcode, hlaid, rfl, hcontext⟩ := read_eq_ok.mp h
  have hanywhere := Supply.layOut_ofLine_congr hlaid
  constructor
  · intro stop'
    exact read_eq_ok.mpr ⟨opcode, fields, hopcode, hanywhere 0 stop', rfl, hcontext⟩
  · exact hopcode
  · exact ⟨fields, rfl, fun stop' ↦ Supply.takes_of_layOut (hanywhere first.line stop')⟩

end Instruction

namespace Line

def located (line : Line) : List Located := line.tokens ++ [line.stop]

/-- Up to a line end, tokens are cut into lines without a rest. -/
theorem flatMap_located_split {stop : Located} (hstop : stop.token.isLineEnd = true)
    (front : List Located) :
    (split (front ++ [stop])).flatMap located = front ++ [stop] ∧
      ∀ line ∈ split (front ++ [stop]), line.stop.token.isLineEnd = true := by
  induction front with
  | nil =>
    rw [List.nil_append, split_cons hstop]
    exact ⟨rfl, List.forall_mem_singleton.mpr hstop⟩
  | cons t front ih =>
    obtain ⟨hjoin, hstops⟩ := ih
    by_cases ht : t.token.isLineEnd = true
    · rw [List.cons_append, split_cons ht, List.flatMap_cons, hjoin]
      exact ⟨rfl, List.forall_mem_cons.mpr ⟨ht, hstops⟩⟩
    · rw [List.cons_append, split, if_neg ht]
      cases hsplit : split (front ++ [stop]) with
      | nil =>
        rw [hsplit] at hjoin
        exact absurd hjoin.symm (List.concat_ne_nil _ _)
      | cons line lines =>
        rw [hsplit] at hjoin hstops
        exact ⟨congrArg (t :: ·) hjoin, List.forall_mem_cons.mpr (List.forall_mem_cons.mp hstops)⟩

end Line

namespace Module

/-! ## Sources -/

/-- Tokens that instructions are read from, line by line: there is none on a blank line, and one
that takes up the line on any other. -/
inductive ReadsLines : ReadContext → List Located → List Instruction → Prop
  | nil (context : ReadContext) : ReadsLines context [] []
  | blank {context : ReadContext} {stop : Located} {more : List Located}
    {instrs : List Instruction} :
    stop.token.isLineEnd = true → ReadsLines context more instrs →
    ReadsLines context (stop :: more) instrs
  | line {context context' : ReadContext} {first stop : Located} {rest more : List Located}
    {i : Instruction} {instrs : List Instruction} :
    (∀ t ∈ first :: rest, t.token.isLineEnd = false) → stop.token.isLineEnd = true →
    i.FillsLine context context' first rest → ReadsLines context' more instrs →
    ReadsLines context (first :: rest ++ stop :: more) (i :: instrs)

/-- Lines that are read hold one instruction each, unless they are blank. -/
theorem readsLines_of_readLines {context : ReadContext} {a b : Assembly} {lines : List Line}
    (h : (readLines context a lines).result = .ok b)
    (hlines : ∀ line ∈ lines, line.stop.token.isLineEnd = true ∧
      ∀ t ∈ line.tokens, t.token.isLineEnd = false) :
    ReadsLines context (lines.flatMap Line.located) (lineInstructions context lines) := by
  induction lines generalizing context a with
  | nil => exact .nil context
  | cons line lines ih =>
    obtain ⟨⟨hstop, htokens⟩, hmore⟩ := List.forall_mem_cons.mp hlines
    obtain ⟨tokens, stop⟩ := line
    cases tokens with
    | nil => exact .blank hstop (ih h hmore)
    | cons first rest =>
      obtain ⟨i, context', c, hread, -, hrest⟩ := readLines_cons_eq_ok.mp h
      rw [lineInstructions_cons hread, List.flatMap_cons, Line.located, List.append_assoc]
      exact .line htokens hstop (Instruction.fillsLine_of_read hread) (ih hrest hmore)

/-- All tokens of a source that is read go into its instructions. -/
theorem readsLines_of_read {source name : String} {m : Module}
    (h : (read source name).result = .ok m) :
    ∃ ts, tokenize source = .ok ts ∧ ReadsLines {} ts (sourceInstructions source) := by
  obtain ⟨ts, a, hts, ha, -, -⟩ := read_eq_ok.mp h
  refine ⟨ts, hts, ?_⟩
  obtain ⟨front, last, rfl, -⟩ := exists_eof_of_tokens hts
  have heof : (Located.mk .eof last).token.isLineEnd = true := rfl
  obtain ⟨hjoin, hstops⟩ := Line.flatMap_located_split heof front
  have hreads := readsLines_of_readLines ha fun line hline ↦
    ⟨hstops line hline, fun t ht ↦ (Line.mem_split hline t ht).2⟩
  rwa [hjoin, ← sourceInstructions_eq hts] at hreads

/-- A module holds the instructions on the lines of its source, each of which takes up its line:
those outside of functions are its global instructions, and those inside make up its functions, in
the order in which they were read. -/
theorem read_conserves_instructions {source name : String} {m : Module}
    (h : (read source name).result = .ok m) :
    ∃ ts, tokenize source = .ok ts ∧ ReadsLines {} ts (sourceInstructions source) ∧
      m.globals = Instruction.outsideSpans false (sourceInstructions source) ∧
      m.functions.flatMap Function.instructions =
        Instruction.insideSpans false (sourceInstructions source) := by
  obtain ⟨ts, hts, hreads⟩ := readsLines_of_read h
  refine ⟨ts, hts, hreads, ?_⟩
  obtain ⟨ts', a, hts', ha, hopen, rfl⟩ := read_eq_ok.mp h
  obtain ⟨hglobals, hfunctions⟩ := Assembly.spans_of_foldlM_add (foldlM_add_lineInstructions ha)
    regular_of_mem_lineInstructions
  rw [sourceInstructions_eq hts', flatMap_instructions_nameFunctions]
  constructor
  · exact hglobals
  · simpa [Assembly.functionInstructions, hopen] using hfunctions

/-- A source with a text that goes over a line end, a comment, a blank line, and a function between
global instructions, the last of which has no newline after it. -/
def interleavedSource : String := String.join [
  "OpName %2 \"a\nb\" ; f\n",
  "\n",
  "OpFunction %1 %2 None %1\n",
  "OpLabel %3\n",
  "OpReturn\n",
  "OpFunctionEnd\n",
  "OpSourceContinued \"c\""]

def interleaved : Module where
  name := "interleaved"
  globals := [
    ⟨.opName, .reg ⟨1⟩ :: StringWords.operands "a\nb", .integer⟩,
    ⟨.opSourceContinued, StringWords.operands "c", .integer⟩]
  functions := [
    { header := ⟨.opFunction, [.reg ⟨0⟩, .reg ⟨1⟩, .imm 0, .reg ⟨0⟩], .integer⟩
      name := some "a\nb"
      blocks := [⟨⟨2⟩, [⟨.opReturn, [], .integer⟩]⟩] }]

/-- The global instructions of `interleavedSource` come together, and its function keeps its own. -/
theorem read_conserves_instructions_interleaved :
    (read interleavedSource "interleaved").result = .ok interleaved ∧
      ∃ ts, tokenize interleavedSource = .ok ts ∧
        ReadsLines {} ts (sourceInstructions interleavedSource) ∧
        interleaved.globals =
          Instruction.outsideSpans false (sourceInstructions interleavedSource) ∧
        interleaved.functions.flatMap Function.instructions =
          Instruction.insideSpans false (sourceInstructions interleavedSource) := by
  have hread : (read interleavedSource "interleaved").result = .ok interleaved := by
    rw [read, tokenize, interleavedSource, String.toList_join]
    decide +kernel
  exact ⟨hread, read_conserves_instructions hread⟩

end Module

end SpirvText
