import SpirvText.Proofs.Token.Lookahead

/-!
# Reading line by line

The tokens of a source are those of its lines, one line after the other.  No token looks past a line
end but a string, and that one goes on to its quote whatever comes after it.  So a text that is read
on its own is read in the same way in front of a line end (`Lexer.tokens_append`), and what comes
behind is read as if it were a source of its own, further down (`Lexer.tokens_add`).
-/

namespace SpirvText

def Located.shift (k : Nat) (t : Located) : Located := { t with line := k + t.line }

def ReadError.shift (k : Nat) (e : ReadError) : ReadError := { e with line := k + e.line }

namespace Lexer

/-! ## Between tokens -/

/-- What may stand between tokens: blanks, and a comment behind them. -/
inductive IsGap : List Char → Prop
  | nil : IsGap []
  | blank {c : Char} {gap : List Char} : isBlank c = true → IsGap gap → IsGap (c :: gap)
  | comment {text : List Char} : '\n' ∉ text → IsGap (';' :: text)

/-- There is no line break between tokens. -/
theorem IsGap.count {gap : List Char} (h : IsGap gap) : gap.count '\n' = 0 := by
  induction h with
  | nil => rfl
  | blank hc _ ih => rw [List.count_cons_of_ne (by rintro rfl; cases hc), ih]
  | comment htext => rw [List.count_cons_of_ne (by decide), List.count_eq_zero.mpr htext]

variable {cs rest tail : List Char}

/-- What is skipped in front of a token is a gap. -/
theorem exists_isGap (cs : List Char) : ∃ gap, IsGap gap ∧ cs = gap ++ skipBlanks cs := by
  fun_induction skipBlanks cs with
  | case1 => exact ⟨[], .nil, rfl⟩
  | case2 c cs hc ih =>
    obtain ⟨gap, hgap, hcs⟩ := ih
    exact ⟨c :: gap, .blank hc hgap, congrArg (c :: ·) hcs⟩
  | case3 c cs hc hsemi =>
    obtain rfl : c = ';' := by simpa using hsemi
    refine ⟨';' :: cs.takeWhile (· != '\n'), .comment ?_, ?_⟩
    · exact List.count_eq_zero.mp (count_takeWhile (by decide) cs)
    · rw [List.cons_append, List.takeWhile_append_dropWhile]
  | case4 c cs => exact ⟨[], .nil, rfl⟩

theorem count_skipBlanks (cs : List Char) : (skipBlanks cs).count '\n' = cs.count '\n' := by
  obtain ⟨gap, hgap, hcs⟩ := exists_isGap cs
  conv_rhs => rw [hcs, List.count_append, hgap.count, Nat.zero_add]

theorem skipBlanks_append_of_cons {c : Char} (h : skipBlanks cs = c :: rest) (tail : List Char) :
    skipBlanks (cs ++ tail) = c :: (rest ++ tail) := by
  fun_induction skipBlanks cs with
  | case1 => cases h
  | case2 d cs hd ih => rw [List.cons_append, skipBlanks, if_pos hd, ih h]
  | case3 d cs hd hsemi =>
    rw [List.cons_append, skipBlanks, if_neg hd, if_pos hsemi, List.dropWhile_append, h]
    rfl
  | case4 d cs hd hsemi =>
    cases h
    rw [List.cons_append, skipBlanks, if_neg hd, if_neg hsemi]

/-- What goes on alike behind a comment and behind blanks. -/
def EndsGap (tail : List Char) : Prop := tail.dropWhile (· != '\n') = skipBlanks tail

/-- What ends a gap goes on behind blanks as it does by itself. -/
theorem skipBlanks_append_of_nil (h : skipBlanks cs = []) (htail : EndsGap tail) :
    skipBlanks (cs ++ tail) = skipBlanks tail := by
  fun_induction skipBlanks cs with
  | case1 => rfl
  | case2 d cs hd ih => rw [List.cons_append, skipBlanks, if_pos hd, ih h]
  | case3 d cs hd hsemi =>
    rw [List.cons_append, skipBlanks, if_neg hd, if_pos hsemi, List.dropWhile_append, h]
    exact htail
  | case4 => cases h

theorem endsGap_newline (rest : List Char) : EndsGap ('\n' :: rest) := by
  simp [EndsGap, skipBlanks, isBlank]

theorem dropWhile_eq_nil_of_notMem {text : List Char} (h : '\n' ∉ text) :
    text.dropWhile (· != '\n') = [] := by
  rw [List.dropWhile_eq_nil_iff]
  intro c hc
  have hne : c ≠ '\n' := fun heq ↦ h (heq ▸ hc)
  simpa using hne

theorem skipBlanks_comment {text : List Char} (h : '\n' ∉ text) :
    skipBlanks (' ' :: ';' :: text) = [] := dropWhile_eq_nil_of_notMem h

/-- A comment up to the end of the text ends a gap. -/
theorem endsGap_comment {text : List Char} (h : '\n' ∉ text) : EndsGap (' ' :: ';' :: text) := by
  rw [EndsGap, skipBlanks_comment h]
  exact dropWhile_eq_nil_of_notMem (by simpa using h)

/-! ## Tokens further down -/

/-- Characters further down have the same tokens further down. -/
theorem tokens_add (k line : Nat) (cs : List Char) :
    tokens (k + line) cs =
      ((tokens line cs).map (List.map (Located.shift k))).mapError (ReadError.shift k) := by
  fun_induction tokens line cs with
  | case1 line cs hskip => rw [tokens_of_skipBlanks_nil hskip]; rfl
  | case2 line cs c rest hskip hc ih =>
    obtain rfl : c = '\n' := by simpa using hc
    rw [tokens_of_skipBlanks_newline hskip, Nat.add_assoc, ih]
    cases tokens (line + 1) rest <;> rfl
  | case3 line cs c rest hskip hc cause hscan =>
    rw [tokens_of_scan_error hskip (by simpa using hc) hscan]
    rfl
  | case4 line cs c rest hskip hc t rest' hscan ih =>
    rw [tokens_of_scan hskip (by simpa using hc) hscan, Nat.add_assoc, ih]
    cases tokens (line + t.lineBreaks) rest' <;> rfl

/-! ## Tokens in front of more text -/

/-- The tokens of a text stay what they are in front of what ends its last word or comment. -/
theorem tokens_append {line : Nat} {ts : List Located} (h : tokens line cs = .ok ts)
    (hword : EndsWord tail) (hgap : EndsGap tail) :
    ∃ front, ts = front ++ [⟨.eof, line + cs.count '\n'⟩] ∧
      tokens line (cs ++ tail) = (tokens (line + cs.count '\n') tail).map (front ++ ·) := by
  fun_induction tokens line cs generalizing ts with
  | case1 line cs hskip =>
    cases h
    have hcount : cs.count '\n' = 0 := by rw [← count_skipBlanks, hskip]; rfl
    refine ⟨[], by rw [hcount]; rfl, ?_⟩
    rw [hcount, tokens_congr (skipBlanks_append_of_nil hskip hgap)]
    cases tokens line tail <;> rfl
  | case2 line cs c rest hskip hc ih =>
    obtain rfl : c = '\n' := by simpa using hc
    obtain ⟨more, hmore, hcons⟩ := bind_eq_ok.mp h
    cases hcons
    obtain ⟨front, rfl, htokens⟩ := ih hmore
    have hcount : line + cs.count '\n' = line + 1 + rest.count '\n' := by
      rw [← count_skipBlanks, hskip, List.count_cons_self]
      omega
    refine ⟨_ :: front, by rw [hcount]; rfl, ?_⟩
    rw [tokens_of_skipBlanks_newline (skipBlanks_append_of_cons hskip tail), htokens, hcount]
    cases tokens (line + 1 + rest.count '\n') tail <;> rfl
  | case3 => cases h
  | case4 line cs c rest hskip hc t rest' hscan ih =>
    have hline : c ≠ '\n' := by simpa using hc
    obtain ⟨more, hmore, hcons⟩ := bind_eq_ok.mp h
    cases hcons
    obtain ⟨front, rfl, htokens⟩ := ih hmore
    obtain ⟨w, rfl, hbreaks, hread⟩ := takes_scan hscan
    have hcount : line + cs.count '\n' = line + t.lineBreaks + rest'.count '\n' := by
      rw [← count_skipBlanks, hskip, List.count_cons_of_ne hline, List.count_append, hbreaks,
        Nat.add_assoc]
    have hscan' := hread (rest' ++ tail) (.append_right hword rest')
    have hskip' := skipBlanks_append_of_cons hskip tail
    rw [List.append_assoc] at hskip'
    refine ⟨_ :: front, by rw [hcount]; rfl, ?_⟩
    rw [tokens_of_scan hskip' hline hscan', htokens, hcount]
    cases tokens (line + t.lineBreaks + rest'.count '\n') tail <;> rfl

end Lexer

open Lexer

/-- Sources are read line by line.  The tokens of a source stay what they are in front of a line
break, and behind it come those of the rest, as many lines further down; a comment behind a source
adds nothing to them. -/
theorem tokenize_line_by_line {first : String} {ts : List Located} (h : tokenize first = .ok ts) :
    ts.getLast? = some ⟨.eof, 1 + first.toList.count '\n'⟩ ∧
      (∀ second : String, tokenize (first ++ "\n" ++ second) =
        ((tokenize second).map fun more ↦
          ts.dropLast ++ ⟨.newline, 1 + first.toList.count '\n'⟩ ::
            more.map (Located.shift (1 + first.toList.count '\n'))).mapError
          (ReadError.shift (1 + first.toList.count '\n'))) ∧
      ∀ comment : String, '\n' ∉ comment.toList →
        tokenize (first ++ " ;" ++ comment) = .ok ts := by
  refine ⟨?_, fun second ↦ ?_, fun comment hcomment ↦ ?_⟩
  · obtain ⟨front, rfl, -⟩ := tokens_append h endsWord_nil rfl
    exact List.getLast?_concat
  · obtain ⟨front, rfl, htokens⟩ :=
      tokens_append h (endsWord_newline second.toList) (endsGap_newline second.toList)
    have hskip : skipBlanks ('\n' :: second.toList) = '\n' :: second.toList := rfl
    have htext : (first ++ "\n" ++ second).toList = first.toList ++ '\n' :: second.toList := by
      simp
    rw [tokenize, htext, htokens, tokens_of_skipBlanks_newline hskip, tokens_add _ 1,
      List.dropLast_concat, tokenize]
    cases tokens 1 second.toList <;> rfl
  · obtain ⟨front, rfl, htokens⟩ :=
      tokens_append h (endsWord_blank (';' :: comment.toList)) (endsGap_comment hcomment)
    have htext :
        (first ++ " ;" ++ comment).toList = first.toList ++ ' ' :: ';' :: comment.toList := by
      simp
    rw [tokenize, htext, htokens, tokens_of_skipBlanks_nil (skipBlanks_comment hcomment)]
    rfl

/-- A string that goes over a line end, and digits that a digit would make a number of. -/
def openExponent : String := "%1 \"a\nb\" 1e"

def openExponentWords : List Located := [⟨.id 1, 1⟩, ⟨.str "a\nb", 1⟩, ⟨.ident "1e", 2⟩]

theorem tokenize_line_by_line_openExponent :
    tokenize openExponent = .ok (openExponentWords ++ [⟨.eof, 2⟩]) ∧
      tokenize (openExponent ++ "\n" ++ "5") =
        .ok (openExponentWords ++ [⟨.newline, 2⟩, ⟨.int 5, 3⟩, ⟨.eof, 3⟩]) ∧
      tokenize (openExponent ++ "\n" ++ "5\n !") = .error ⟨4, .unexpectedChar '!'⟩ ∧
      '\n' ∉ "5 \"".toList ∧
      tokenize (openExponent ++ " ;" ++ "5 \"") = .ok (openExponentWords ++ [⟨.eof, 2⟩]) := by
  have h : tokenize openExponent = .ok (openExponentWords ++ [⟨.eof, 2⟩]) := by decide +kernel
  have hcomment : '\n' ∉ "5 \"".toList := by decide +kernel
  obtain ⟨-, hlines, hcomments⟩ := tokenize_line_by_line h
  refine ⟨h, (hlines "5").trans ?_, (hlines "5\n !").trans ?_, hcomment, hcomments _ hcomment⟩
  · decide +kernel
  · decide +kernel

end SpirvText
