import SpirvText.Proofs.Instruction.Relocation
import SpirvText.Proofs.Layout.Failure
import SpirvText.Proofs.Module.Conservation
import SpirvText.Proofs.Token.Positions

/-!
# The lines that errors are on

An error in an instruction is on the line of one of the tokens it is read from
(`Instruction.failsOnly_read`), also where only the layout finds it.  The tokens of a source are on
its lines, so every error of reading the source is on one of them (`Module.failsOnly_read`).
-/

namespace SpirvText

open Lexer Transcript

variable {P : Nat → Prop}

/-- An error in an instruction is on the line of one of its tokens, or of its end. -/
theorem Instruction.failsOnly_read (context : ReadContext) {first stop : Located}
    {rest : List Located} (hfirst : P first.line) (hrest : ∀ t ∈ rest, P t.line)
    (hstop : P stop.line) : (read context first rest stop).FailsOnly fun e ↦ P e.line := by
  have hmoved : ∀ t : Located, P t.line → Located.Moved (fun line _ ↦ P line) t t :=
    fun t ht ↦ ⟨t.token, ht⟩
  have hplaced : ∀ {l : Nat}, P l → P (if l = 0 then first.line else l) := by
    intro l hl
    split
    · exact hfirst
    · exact hl
  have halike := endAlike_read context (hmoved first hfirst)
    (List.forall₂_same.mpr fun t ht ↦ hmoved t (hrest t ht)) (hmoved stop hstop) hplaced
  intro e he
  rw [he] at halike
  obtain _ | ⟨_, hline⟩ := halike
  exact hline

namespace Module

/-- An error of reading lines is on one of them. -/
theorem failsOnly_readLines {lines : List Line} (h : ∀ line ∈ lines, ∀ t ∈ line.located, P t.line)
    (context : ReadContext) (a : Assembly) :
    (readLines context a lines).FailsOnly fun e ↦ P e.line := by
  induction lines generalizing context a with
  | nil => exact failsOnly_pure _
  | cons line lines ih =>
    obtain ⟨tokens, stop⟩ := line
    obtain ⟨hline, hlines⟩ := List.forall_mem_cons.mp h
    cases tokens with
    | nil => exact ih hlines context a
    | cons first rest =>
      obtain ⟨hfirst, htokens⟩ := List.forall_mem_cons.mp hline
      obtain ⟨hrest, hstop⟩ := List.forall_mem_append.mp htokens
      have hread := Instruction.failsOnly_read context hfirst hrest
        (hstop stop List.mem_cons_self)
      refine hread.bind fun found ↦ ?_
      obtain ⟨i, context⟩ := found
      dsimp only
      split
      · exact failsOnly_fail hfirst
      · exact ih hlines context _

/-- The tokens on the lines of a source are tokens of the source. -/
theorem mem_of_mem_located {source : String} {ts : List Located} (hts : tokenize source = .ok ts)
    {line : Line} (hline : line ∈ Line.split ts) : ∀ t ∈ line.located, t ∈ ts := by
  intro t ht
  obtain ⟨front, last, rfl, -⟩ := exists_eof_of_tokens hts
  have heof : (Located.mk .eof last).token.isLineEnd = true := rfl
  rw [← (Line.flatMap_located_split heof front).1]
  exact List.mem_flatMap.mpr ⟨line, hline, ht⟩

theorem exists_line_eq_lastLine {source : String} {ts : List Located}
    (hts : tokenize source = .ok ts) : ∃ t ∈ ts, lastLine ts = t.line := by
  obtain ⟨front, last, rfl, -⟩ := exists_eof_of_tokens hts
  refine ⟨⟨.eof, last⟩, List.mem_append_right _ List.mem_cons_self, ?_⟩
  rw [lastLine, List.getLast?_concat]
  rfl

/-- An error of reading a source is on a line that the source has. -/
theorem failsOnly_read (source name : String) :
    (read source name).FailsOnly fun e ↦ HasLine source.toList e.line := by
  rw [read_eq_readLines]
  intro e he
  rcases bind_eq_error.mp he with hlexer | ⟨_, ts, hts, he⟩
  · exact hasLine_of_tokenize_error hlexer
  have hts : tokenize source = .ok ts := congrArg result hts
  have hlines := hasLine_of_tokenize hts
  refine FailsOnly.bind (failsOnly_readLines ?_ {} {}) (fun a ↦ ?_) e he
  · exact fun line hline t ht ↦ hlines t (mem_of_mem_located hts hline t ht)
  · split
    · obtain ⟨t, ht, hlast⟩ := exists_line_eq_lastLine hts
      exact failsOnly_fail (hlast ▸ hlines t ht)
    · exact .put_bind (failsOnly_pure _)

end Module

/-- Line numbers are exact.  Every token, the end of the source and what is no token are on the line
that is one more than the line breaks in front of them, and every error of reading a source is on
one of its lines. -/
theorem line_numbers_exact (source name : String) :
    OnItsLine [] source.toList (tokenize source) ∧
      ∀ e, (Module.read source name).result = .error e →
        1 ≤ e.line ∧ e.line ≤ 1 + source.toList.count '\n' :=
  ⟨onItsLine_tokenize source, Module.failsOnly_read source name⟩

/-- A string that goes over a line end, a comment and an empty line, and then a line that ends too
early. -/
def missingText : String := "OpName %1 \"a\nb\" ; c\n\nOpName %1"

/-- The missing string of `missingText` is reported on the fourth line. -/
theorem line_numbers_exact_missingText :
    (Module.read missingText "missing").result =
        .error ⟨4, .operands (.malformed .opName .missingString)⟩ ∧
      1 ≤ 4 ∧ 4 ≤ 1 + missingText.toList.count '\n' := by
  have h : (Module.read missingText "missing").result =
      .error ⟨4, .operands (.malformed .opName .missingString)⟩ := by decide +kernel
  exact ⟨h, (line_numbers_exact missingText "missing").2 _ h⟩

end SpirvText
