import Mathlib.Algebra.Group.Int.Defs
import Mathlib.Data.List.TakeWhile
import Mathlib.Tactic.Common
import SpirvText.Proofs.Inversion
import SpirvText.Proofs.Token.Digits
import SpirvText.Token.Lexer

/-!
# Words and the tokens they spell

Written text is a row of words, each of them followed by a blank, the end of a line or the end of
the source.  `Spells w t` says that the characters `w` are read as the token `t` whenever one of
these follows, and leave what follows as it is.  `Reads cs ts` says that the tokens of a text are
`ts`, whatever the lines they are on.  A text is then read word by word (`Reads.word`).
-/

namespace SpirvText.Lexer

/-- What may follow a word: a blank, the end of a line, or nothing. -/
def EndsWord (rest : List Char) : Prop := ∀ c ∈ rest.head?, c = ' ' ∨ c = '\n'

theorem endsWord_nil : EndsWord [] := by simp [EndsWord]

theorem endsWord_blank (rest : List Char) : EndsWord (' ' :: rest) := by simp [EndsWord]

theorem endsWord_newline (rest : List Char) : EndsWord ('\n' :: rest) := by simp [EndsWord]

/-- What ends a word goes on with no character of a class without blank and line end. -/
theorem EndsWord.stops {rest : List Char} (h : EndsWord rest) {p : Char → Bool}
    (hblank : p ' ' = false) (hline : p '\n' = false) : ∀ c ∈ rest.head?, p c = false := by
  intro c hc
  rcases h c hc with rfl | rfl
  · exact hblank
  · exact hline

theorem takeWhile_append_stop {p : Char → Bool} {cs rest : List Char} (hcs : ∀ c ∈ cs, p c = true)
    (hrest : ∀ c ∈ rest.head?, p c = false) : (cs ++ rest).takeWhile p = cs := by
  rw [List.takeWhile_append_of_pos hcs]
  cases rest with
  | nil => simp
  | cons c rest => simp [hrest c rfl]

theorem dropWhile_append_stop {p : Char → Bool} {cs rest : List Char} (hcs : ∀ c ∈ cs, p c = true)
    (hrest : ∀ c ∈ rest.head?, p c = false) : (cs ++ rest).dropWhile p = rest := by
  rw [List.dropWhile_append_of_pos hcs]
  cases rest with
  | nil => rfl
  | cons c rest => simp [hrest c rfl]

/-! ## Texts -/

/-- The characters `cs` are read as the token `t`, whatever ends them. -/
def Spells (cs : List Char) (t : Token) : Prop :=
  ∃ c tail, cs = c :: tail ∧ isBlank c = false ∧ c ≠ ';' ∧ c ≠ '\n' ∧
    ∀ rest, EndsWord rest → scan c (tail ++ rest) = .ok (t, rest)

/-- The tokens of the characters `cs`, on whatever lines, are `ts`. -/
def Reads (cs : List Char) (ts : List Token) : Prop :=
  ∀ line, ∃ located, tokens line cs = .ok located ∧ located.map (·.token) = ts

theorem tokens_of_skipBlanks_nil {cs : List Char} (h : skipBlanks cs = []) (line : Nat) :
    tokens line cs = .ok [⟨.eof, line⟩] := by
  rw [tokens]
  split
  · rfl
  · next heq => rw [h] at heq; cases heq

theorem tokens_of_skipBlanks_newline {cs rest : List Char} (h : skipBlanks cs = '\n' :: rest)
    (line : Nat) :
    tokens line cs = (tokens (line + 1) rest).map (⟨.newline, line⟩ :: ·) := by
  rw [tokens]
  split
  · next heq => rw [h] at heq; cases heq
  · next c r heq =>
    rw [h] at heq
    cases heq
    rw [if_pos (beq_self_eq_true _)]
    cases tokens (line + 1) rest <;> rfl

/-- A token is read behind blanks, and the next ones are on the line that it ends on. -/
theorem tokens_of_scan {cs rest rest' : List Char} {c : Char} {t : Token}
    (h : skipBlanks cs = c :: rest) (hc : c ≠ '\n') (hscan : scan c rest = .ok (t, rest'))
    (line : Nat) :
    tokens line cs = (tokens (line + t.lineBreaks) rest').map (⟨t, line⟩ :: ·) := by
  rw [tokens]
  split
  · next heq => rw [h] at heq; cases heq
  · next c' r heq =>
    rw [h] at heq
    cases heq
    rw [if_neg (by simpa using hc)]
    split
    · next heq => rw [hscan] at heq; cases heq
    · next heq =>
      rw [hscan] at heq
      cases heq
      cases tokens (line + t.lineBreaks) rest' <;> rfl

theorem tokens_of_scan_error {cs rest : List Char} {c : Char} {cause : ReadCause}
    (h : skipBlanks cs = c :: rest) (hc : c ≠ '\n') (hscan : scan c rest = .error cause)
    (line : Nat) : tokens line cs = .error ⟨line, cause⟩ := by
  rw [tokens]
  split
  · next heq => rw [h] at heq; cases heq
  · next c' r heq =>
    rw [h] at heq
    cases heq
    rw [if_neg (by simpa using hc)]
    split
    · next heq =>
      rw [hscan] at heq
      cases heq
      rfl
    · next heq => rw [hscan] at heq; cases heq

/-- Tokens do not depend on the blanks and the comment in front. -/
theorem tokens_congr {cs cs' : List Char} (h : skipBlanks cs = skipBlanks cs') (line : Nat) :
    tokens line cs = tokens line cs' := by
  cases hcs' : skipBlanks cs' with
  | nil => rw [tokens_of_skipBlanks_nil hcs', tokens_of_skipBlanks_nil (h.trans hcs')]
  | cons c rest =>
    have hcs := h.trans hcs'
    by_cases hc : c = '\n'
    · subst hc
      rw [tokens_of_skipBlanks_newline hcs', tokens_of_skipBlanks_newline hcs]
    · cases hscan : scan c rest with
      | error cause =>
        rw [tokens_of_scan_error hcs' hc hscan, tokens_of_scan_error hcs hc hscan]
      | ok read => rw [tokens_of_scan hcs' hc hscan, tokens_of_scan hcs hc hscan]

theorem tokens_blank (cs : List Char) (line : Nat) : tokens line (' ' :: cs) = tokens line cs :=
  tokens_congr (by simp [skipBlanks, isBlank]) line

/-- A word is the first token, whatever becomes of what ends it. -/
theorem Spells.tokens {w rest : List Char} {t : Token} (hw : Spells w t) (hrest : EndsWord rest)
    (line : Nat) :
    Lexer.tokens line (w ++ rest) =
      (Lexer.tokens (line + t.lineBreaks) rest).map (⟨t, line⟩ :: ·) := by
  obtain ⟨c, tail, rfl, hblank, hsemi, hline, hscan⟩ := hw
  refine tokens_of_scan ?_ hline (hscan rest hrest) line
  simp [skipBlanks, hblank, hsemi]

namespace Reads

theorem nil : Reads [] [.eof] := fun line ↦
  ⟨_, tokens_of_skipBlanks_nil rfl line, rfl⟩

theorem newline {cs : List Char} {ts : List Token} (h : Reads cs ts) :
    Reads ('\n' :: cs) (.newline :: ts) := by
  intro line
  obtain ⟨located, hlocated, hts⟩ := h (line + 1)
  refine ⟨⟨.newline, line⟩ :: located, ?_, by simp [hts]⟩
  have hskip : skipBlanks ('\n' :: cs) = '\n' :: cs := by simp [skipBlanks, isBlank]
  rw [tokens_of_skipBlanks_newline hskip line, hlocated]
  rfl

theorem blank {cs : List Char} {ts : List Token} (h : Reads cs ts) : Reads (' ' :: cs) ts := by
  intro line
  obtain ⟨located, hlocated, hts⟩ := h line
  exact ⟨located, (tokens_blank cs line).trans hlocated, hts⟩

/-- A comment is passed over up to the end of its line. -/
theorem comment {text cs : List Char} {ts : List Token} (htext : '\n' ∉ text)
    (h : Reads ('\n' :: cs) ts) : Reads (';' :: text ++ '\n' :: cs) ts := by
  intro line
  obtain ⟨located, hlocated, hts⟩ := h line
  refine ⟨located, (tokens_congr ?_ line).trans hlocated, hts⟩
  have hdrop : (text ++ '\n' :: cs).dropWhile (· != '\n') = '\n' :: cs := by
    refine dropWhile_append_stop (fun c hc ↦ ?_) (by simp)
    exact bne_iff_ne.mpr fun heq ↦ htext (heq ▸ hc)
  simp [skipBlanks, isBlank, hdrop]

/-- A word is one token. -/
theorem word {w rest : List Char} {t : Token} {ts : List Token} (hw : Spells w t)
    (hrest : EndsWord rest) (h : Reads rest ts) : Reads (w ++ rest) (t :: ts) := by
  intro line
  obtain ⟨located, hlocated, hts⟩ := h (line + t.lineBreaks)
  refine ⟨⟨t, line⟩ :: located, ?_, by simp [hts]⟩
  rw [hw.tokens hrest line, hlocated]
  rfl

end Reads

/-- A word on its own is one token. -/
theorem Spells.reads {w : List Char} {t : Token} (h : Spells w t) : Reads w [t, .eof] := by
  have hword := Reads.word h endsWord_nil Reads.nil
  rwa [List.append_nil] at hword

/-! ## Character classes -/

theorem ne_of_continuesName {c d : Char} (h : continuesName c = true)
    (hd : continuesName d = false) : c ≠ d := by
  rintro rfl
  rw [h] at hd
  cases hd

theorem isBlank_of_continuesName {c : Char} (h : continuesName c = true) : isBlank c = false := by
  rw [← Bool.not_eq_true]
  intro hb
  simp only [isBlank, Bool.or_eq_true, beq_iff_eq] at hb
  rcases hb with ((rfl | rfl) | rfl) | rfl <;> revert h <;> decide

theorem continuesName_of_startsName {c : Char} (h : startsName c = true) :
    continuesName c = true := by
  simp only [startsName, continuesName, Char.isAlphanum, Bool.or_eq_true] at h ⊢
  tauto

theorem continuesName_of_isDigit {c : Char} (h : c.isDigit = true) : continuesName c = true := by
  simp [continuesName, Char.isAlphanum, h]

/-- No character both begins a name and is a digit. -/
theorem isDigit_of_startsName {c : Char} (h : startsName c = true) : c.isDigit = false := by
  rw [← Bool.not_eq_true]
  intro hd
  rw [startsName, Bool.or_eq_true, beq_iff_eq] at h
  rcases h with halpha | rfl
  · have hdigit : (c.val ≥ '0'.val && c.val ≤ '9'.val) = true := hd
    have hletter : (decide (c.val ≥ 'A'.val ∧ c.val ≤ 'Z'.val) ||
        c.val ≥ 'a'.val && c.val ≤ 'z'.val) = true := halpha
    simp only [Bool.or_eq_true, Bool.and_eq_true, decide_eq_true_eq, ge_iff_le,
      UInt32.le_iff_toNat_le] at hdigit hletter
    have h9 : '9'.val.toNat = 57 := rfl
    have hA : 'A'.val.toNat = 65 := rfl
    have ha : 'a'.val.toNat = 97 := rfl
    omega
  · exact absurd hd (by decide)

/-! ## Numbers -/

def signed (negative : Bool) (cs : List Char) : List Char := if negative then '-' :: cs else cs

/-- A word that begins with a digit, or with a sign and a digit, is what the reading of numbers
makes of it. -/
theorem spells_of_scanNumber (negative : Bool) {d : Char} {cs : List Char} {t : Token}
    (hd : d.isDigit = true)
    (h : ∀ rest, EndsWord rest → scanNumber negative (d :: (cs ++ rest)) = .ok (t, rest)) :
    Spells (signed negative (d :: cs)) t := by
  have hname := continuesName_of_isDigit hd
  cases negative with
  | true =>
    refine ⟨'-', d :: cs, rfl, by decide, by decide, by decide, fun rest hrest ↦ ?_⟩
    rw [← h rest hrest]
    simp [scan, hd]
  | false =>
    refine ⟨d, cs, rfl, isBlank_of_continuesName hname, ne_of_continuesName hname (by decide),
      ne_of_continuesName hname (by decide), fun rest hrest ↦ ?_⟩
    have hne : d ≠ '%' ∧ d ≠ '"' ∧ d ≠ '-' := by
      refine ⟨?_, ?_, ?_⟩ <;> exact ne_of_continuesName hname (by decide)
    rw [← h rest hrest]
    simp [scan, hd, hne]

/-- A number whose digits do not go on in an `x` is decimal. -/
theorem scanNumber_append (negative : Bool) {digits rest : List Char} (hne : digits ≠ [])
    (hdigits : ∀ d ∈ digits, d.isDigit = true)
    (hrest : digits = ['0'] → ∀ c ∈ rest.head?, c ≠ 'x' ∧ c ≠ 'X') :
    scanNumber negative (digits ++ rest) = scanDecimal negative (digits ++ rest) := by
  unfold scanNumber
  split
  · next x more heq =>
    have hx : x ≠ 'x' ∧ x ≠ 'X' := by
      rcases digits with _ | ⟨d, _ | ⟨d', ds⟩⟩
      · exact absurd rfl hne
      · simp only [List.cons_append, List.nil_append, List.cons.injEq] at heq
        exact hrest (by rw [heq.1]) x (by rw [heq.2]; rfl)
      · simp only [List.cons_append, List.cons.injEq] at heq
        have hd : d'.isDigit = true := hdigits d' (by simp)
        rw [heq.2.1] at hd
        constructor <;> (rintro rfl; revert hd; decide)
    simp [hx]
  · rfl

/-- A word of digits and what comes after them is what the reading of decimal numbers makes of
it. -/
theorem spells_of_scanDecimal (negative : Bool) {digits tail : List Char} {t : Token}
    (hne : digits ≠ []) (hdigits : ∀ d ∈ digits, d.isDigit = true)
    (htail : digits = ['0'] → ∀ c ∈ tail.head?, c ≠ 'x' ∧ c ≠ 'X')
    (h : ∀ rest, EndsWord rest → scanDecimal negative (digits ++ (tail ++ rest)) = .ok (t, rest)) :
    Spells (signed negative (digits ++ tail)) t := by
  have hmark : ∀ rest, EndsWord rest → digits = ['0'] →
      ∀ c ∈ (tail ++ rest).head?, c ≠ 'x' ∧ c ≠ 'X' := by
    intro rest hrest hzero c hc
    cases tail with
    | nil => rcases hrest c hc with rfl | rfl <;> decide
    | cons c' tail => exact htail hzero c hc
  cases digits with
  | nil => exact absurd rfl hne
  | cons d digits =>
    refine spells_of_scanNumber negative (hdigits d List.mem_cons_self) fun rest hrest ↦ ?_
    rw [← h rest hrest, ← scanNumber_append negative hne hdigits (hmark rest hrest)]
    simp

/-! ## Names -/

/-- The characters `tail` go on from digits as a name, and not as an exponent or as the mark of a
hexadecimal number. -/
def GoesOnAsName (digits : List Char) (c : Char) (tail : List Char) : Prop :=
  (c = 'e' ∨ c = 'E' → ∀ d ∈ tail.head?, d.isDigit = false) ∧
    (digits = ['0'] → c ≠ 'x' ∧ c ≠ 'X')

/-- A word that is read as a name.  It may begin with digits. -/
def IsName (cs : List Char) : Prop :=
  ∃ digits c tail, cs = digits ++ c :: tail ∧ (∀ d ∈ digits, d.isDigit = true) ∧
    startsName c = true ∧ (∀ d ∈ tail, continuesName d = true) ∧
    (digits ≠ [] → GoesOnAsName digits c tail)

/-- A name goes on up to what ends a word. -/
theorem scanName_append {cs rest : List Char} (start : List Char)
    (hcs : ∀ c ∈ cs, continuesName c = true) (hrest : EndsWord rest) :
    scanName start (cs ++ rest) = (.ident (String.ofList (start ++ cs)), rest) := by
  have hstop := hrest.stops (p := continuesName) (by decide) (by decide)
  rw [scanName, takeWhile_append_stop hcs hstop, dropWhile_append_stop hcs hstop]

/-- An exponent needs a digit, which is not among what ends a word. -/
theorem scanExponent_append_eq_none {c : Char} {tail rest : List Char}
    (htail : ∀ d ∈ tail, continuesName d = true) (hrest : EndsWord rest)
    (h : c = 'e' ∨ c = 'E' → ∀ d ∈ tail.head?, d.isDigit = false) :
    scanExponent (c :: (tail ++ rest)) = none := by
  rw [scanExponent.eq_def]
  dsimp only
  split
  · next hletter =>
    have hhead : ∀ d ∈ (tail ++ rest).head?, d.isDigit = false ∧ d ≠ '+' ∧ d ≠ '-' := by
      intro d hd
      cases tail with
      | nil =>
        rcases hrest d hd with rfl | rfl <;> decide
      | cons d' tail =>
        obtain rfl : d' = d := by simpa using hd
        have hname := htail d' List.mem_cons_self
        exact ⟨h (by simpa using hletter) d' rfl, ne_of_continuesName hname (by decide),
          ne_of_continuesName hname (by decide)⟩
    cases hmore : tail ++ rest with
    | nil => rfl
    | cons d more =>
      obtain ⟨hdigit, hplus, hminus⟩ := hhead d (by rw [hmore]; rfl)
      split
      · next heq => exact absurd (List.cons.inj heq).1 hplus
      · next heq => exact absurd (List.cons.inj heq).1 hminus
      · simp [scanExponentDigits, hdigit]
  · rfl

/-- A name spells itself. -/
theorem spells_name {cs : List Char} (h : IsName cs) : Spells cs (.ident (String.ofList cs)) := by
  obtain ⟨digits, c, tail, rfl, hdigits, hc, htail, hgoes⟩ := h
  have hcont := continuesName_of_startsName hc
  cases digits with
  | nil =>
    refine ⟨c, tail, rfl, isBlank_of_continuesName hcont, ne_of_continuesName hcont (by decide),
      ne_of_continuesName hcont (by decide), fun rest hrest ↦ ?_⟩
    have hne : c ≠ '%' ∧ c ≠ '"' ∧ c ≠ '-' := by
      refine ⟨?_, ?_, ?_⟩ <;> exact ne_of_continuesName hcont (by decide)
    simp [scan, hne, isDigit_of_startsName hc, hc, scanName_append [c] htail hrest]
  | cons d digits =>
    obtain ⟨hexp, hmark⟩ := hgoes (by simp)
    refine spells_of_scanDecimal false (by simp) hdigits (by simpa using hmark)
      fun rest hrest ↦ ?_
    have hstop : ∀ x ∈ (c :: tail ++ rest).head?, x.isDigit = false := by
      simpa using isDigit_of_startsName hc
    have hname : ∀ x ∈ c :: tail, continuesName x = true := by
      simpa [hcont] using htail
    have hnone : scanExponent (c :: tail ++ rest) = none :=
      scanExponent_append_eq_none htail hrest hexp
    have hat : atName (c :: tail ++ rest) = true := hc
    rw [scanDecimal]
    simp only [takeWhile_append_stop hdigits hstop, dropWhile_append_stop hdigits hstop, hnone, hat,
      Bool.not_false, Option.isNone_none, Bool.and_self, if_true]
    rw [scanName_append _ hname hrest]

/-! ## What the text of a token is like -/

/-- The tokens that have a spelling of their own: those that are not the end of a line, and whose
text is a name, or a string that does not end in a backslash, for that would take the closing quote
in. -/
def WellFormed : Token → Prop
  | .ident text => IsName text.toList
  | .str text => text.toList.getLast? ≠ some '\\'
  | t => t.isLineEnd = false

theorem WellFormed.isLineEnd {t : Token} (h : WellFormed t) : t.isLineEnd = false := by
  cases t <;> first | rfl | exact h

theorem wellFormed_of_scanInteger {negative : Bool} {base : Nat}
    {mark digits rest rest' : List Char} {t : Token}
    (h : scanInteger negative base mark digits rest = .ok (t, rest')) : WellFormed t := by
  unfold scanInteger at h
  split at h
  · next heq =>
    obtain ⟨-, hint⟩ := Option.ite_none_right_eq_some.mp heq
    cases h
    cases hint
    rfl
  · cases h

/-- Letters that are not an exponent go on as a name. -/
theorem head?_takeWhile_of_scanExponent {c : Char} {more : List Char}
    (hnone : scanExponent (c :: more) = none) (hc : c = 'e' ∨ c = 'E') :
    ∀ d ∈ (more.takeWhile continuesName).head?, d.isDigit = false := by
  intro d hd
  cases more with
  | nil => cases hd
  | cons d' more =>
    rw [List.takeWhile_cons] at hd
    split at hd
    · next hname =>
      obtain rfl : d' = d := by simpa using hd
      have hplus : d' ≠ '+' := ne_of_continuesName hname (by decide)
      have hminus : d' ≠ '-' := ne_of_continuesName hname (by decide)
      have hletter : (c == 'e' || c == 'E') = true := by simpa using hc
      rw [scanExponent.eq_def] at hnone
      simpa [hletter, hplus, hminus, scanExponentDigits] using hnone
    · cases hd

theorem wellFormed_of_scanDecimal {negative : Bool} {cs rest : List Char} {t : Token}
    (hmark : ∀ x r, cs = '0' :: x :: r → x ≠ 'x' ∧ x ≠ 'X')
    (h : scanDecimal negative cs = .ok (t, rest)) : WellFormed t := by
  unfold scanDecimal at h
  dsimp only at h
  split at h
  · next hname =>
    have hcs := List.takeWhile_append_dropWhile (p := Char.isDigit) (l := cs)
    cases hmore : cs.dropWhile Char.isDigit with
    | nil => simp [hmore, atName] at hname
    | cons c more =>
      simp only [hmore, atName, Bool.and_eq_true, Option.isNone_iff_eq_none] at hname
      obtain ⟨⟨-, hc⟩, hnone⟩ := hname
      rw [hmore] at h hcs
      cases h
      refine ⟨cs.takeWhile Char.isDigit, c, more.takeWhile continuesName, ?_, ?_, hc, ?_, ?_⟩
      · rw [String.toList_ofList, List.takeWhile_cons_of_pos (continuesName_of_startsName hc)]
      · exact fun d hd ↦ (List.mem_takeWhile_imp hd)
      · exact fun d hd ↦ (List.mem_takeWhile_imp hd)
      · intro _
        refine ⟨head?_takeWhile_of_scanExponent hnone, fun hzero ↦ ?_⟩
        rw [hzero] at hcs
        exact hmark c more hcs.symm
  · split at h
    · exact wellFormed_of_scanInteger h
    all_goals
      cases h
      rfl

theorem wellFormed_of_scanNumber {negative : Bool} {cs rest : List Char} {t : Token}
    (h : scanNumber negative cs = .ok (t, rest)) : WellFormed t := by
  unfold scanNumber at h
  split at h
  · next x more =>
    split at h
    · exact wellFormed_of_scanInteger h
    · next hx =>
      refine wellFormed_of_scanDecimal (fun y r heq ↦ ?_) h
      cases heq
      simpa using hx
  · next hshape =>
    exact wellFormed_of_scanDecimal (fun x r heq ↦ absurd heq (hshape x r)) h

/-- Only a closing quote leaves no text in front of it. -/
theorem eq_cons_of_unquote?_nil {cs rest : List Char} (h : Text.unquote? cs = some ([], rest)) :
    cs = '"' :: rest := by
  fun_cases Text.unquote? cs with
  | case1 => simp [Text.unquote?] at h
  | case2 => simpa [Text.unquote?] using h
  | case3 cs =>
    obtain ⟨⟨_, _⟩, _, heq⟩ := Option.map_eq_some_iff.1 h
    cases heq
  | case4 c cs hquote hescape =>
    rw [Text.unquote?.eq_4 _ _ hquote hescape] at h
    obtain ⟨⟨_, _⟩, _, heq⟩ := Option.map_eq_some_iff.1 h
    cases heq

/-- A backslash in front of the closing quote would have been taken for the escape of a quote. -/
theorem getLast?_of_unquote? {cs text rest : List Char}
    (h : Text.unquote? cs = some (text, rest)) : text.getLast? ≠ some '\\' := by
  fun_induction Text.unquote? cs generalizing text with
  | case1 => simp at h
  | case2 => simp_all
  | case3 cs ih =>
    obtain ⟨⟨text', rest'⟩, h', heq⟩ := Option.map_eq_some_iff.1 h
    cases heq
    have := ih h'
    cases text' <;> simp_all
  | case4 c cs hquote hescape ih =>
    obtain ⟨⟨text', rest'⟩, h', heq⟩ := Option.map_eq_some_iff.1 h
    cases heq
    have := ih h'
    cases text' with
    | nil =>
      intro hc
      exact hescape rest (by simpa using hc) (eq_cons_of_unquote?_nil h')
    | cons c' text' => simpa using this

/-- Every token that is read has a spelling. -/
theorem wellFormed_of_scan {c : Char} {cs rest : List Char} {t : Token}
    (h : scan c cs = .ok (t, rest)) : WellFormed t := by
  unfold scan at h
  split at h
  · unfold scanId at h
    dsimp only at h
    split at h <;> cases h
    rfl
  · split at h
    · unfold scanString at h
      split at h <;> cases h
      next heq => simpa [WellFormed] using getLast?_of_unquote? heq
    · split at h
      · split at h
        · split at h
          · exact wellFormed_of_scanNumber h
          · cases h
        · cases h
      · split at h
        · exact wellFormed_of_scanNumber h
        · split at h
          · next hc =>
            cases h
            refine ⟨[], c, cs.takeWhile continuesName, by simp, by simp, hc, ?_, by simp⟩
            exact fun d hd ↦ (List.mem_takeWhile_imp hd)
          · cases h

theorem Spells.wellFormed {cs : List Char} {t : Token} (h : Spells cs t) : WellFormed t := by
  obtain ⟨c, tail, -, -, -, -, hscan⟩ := h
  exact wellFormed_of_scan (hscan [] endsWord_nil)

/-- Every token of a source has a spelling, but for the ends of lines. -/
theorem wellFormed_of_tokens {line : Nat} {cs : List Char} {located : List Located}
    (h : tokens line cs = .ok located) :
    ∀ t ∈ located, t.token.isLineEnd = false → WellFormed t.token := by
  fun_induction tokens line cs generalizing located with
  | case1 =>
    cases h
    simp [Token.isLineEnd]
  | case2 _ _ _ _ _ _ ih =>
    obtain ⟨more, hmore, hcons⟩ := bind_eq_ok.mp h
    cases hcons
    simpa [Token.isLineEnd] using ih hmore
  | case3 => cases h
  | case4 _ _ _ _ _ _ _ _ hscan ih =>
    obtain ⟨more, hmore, hcons⟩ := bind_eq_ok.mp h
    cases hcons
    simpa using ⟨fun _ ↦ wellFormed_of_scan hscan, ih hmore⟩

/-! ## Registers, integers and strings -/

theorem isDigit_of_isDigit_ten {c : Char} (h : Numeral.isDigit 10 c = true) :
    c.isDigit = true := by
  simp only [Numeral.isDigit, Bool.and_eq_true, decide_eq_true_eq] at h
  obtain ⟨-, hvalue⟩ := h
  by_contra hc
  rw [Numeral.digitValue, if_neg hc] at hvalue
  split at hvalue <;> omega

theorem isDigit_of_mem_toDigits_ten {n : Nat} {c : Char} (h : c ∈ Nat.toDigits 10 n) :
    c.isDigit = true :=
  isDigit_of_isDigit_ten (Numeral.isDigit_of_mem_toDigits (by decide) (by decide) h)

theorem EndsWord.scanExponent {rest : List Char} (h : EndsWord rest) :
    scanExponent rest = none := by
  cases rest with
  | nil => rfl
  | cons c rest => rcases h c rfl with rfl | rfl <;> rfl

theorem spells_id (number : UInt32) :
    Spells ('%' :: Nat.toDigits 10 number.toNat) (.id number) := by
  refine ⟨'%', _, rfl, by decide, by decide, by decide, fun rest hrest ↦ ?_⟩
  have hdigits : ∀ c ∈ Nat.toDigits 10 number.toNat, c.isDigit = true :=
    fun c ↦ isDigit_of_mem_toDigits_ten
  have hstop := hrest.stops (p := Char.isDigit) (by decide) (by decide)
  simp [scan, scanId, takeWhile_append_stop hdigits hstop, dropWhile_append_stop hdigits hstop,
    Numeral.word?_toDigits]

/-- A whole number, with or without a sign, in decimal. -/
theorem spells_decimal (negative : Bool) (n : Nat)
    (hfits : integerFits 10 (if negative then -n else n) = true) :
    Spells (signed negative (Nat.toDigits 10 n))
      (.int (if negative then -n else n)) := by
  have hdigits : ∀ c ∈ Nat.toDigits 10 n, c.isDigit = true := fun c ↦ isDigit_of_mem_toDigits_ten
  rw [← List.append_nil (Nat.toDigits 10 n)]
  refine spells_of_scanDecimal negative Nat.toDigits_ne_nil hdigits (by simp) fun rest hrest ↦ ?_
  have hstop := hrest.stops (p := Char.isDigit) (by decide) (by decide)
  have hname : atName rest = false := by
    cases rest with
    | nil => rfl
    | cons c rest => exact hrest.stops (p := startsName) (by decide) (by decide) c rfl
  have hfraction : scanFraction rest = (none, rest) := by
    unfold scanFraction
    split
    · next c cs =>
      rcases hrest '.' rfl with h | h <;> cases h
    · rfl
  rw [List.nil_append, scanDecimal]
  simp only [takeWhile_append_stop hdigits hstop, dropWhile_append_stop hdigits hstop, hname,
    hfraction, hrest.scanExponent, Bool.and_false, Bool.false_and, Bool.false_eq_true, if_false]
  simp [scanInteger, integerToken?, Numeral.value_toDigits, hfits, Nat.toDigits_ne_nil]

theorem toList_toString_ofNat (n : Nat) : (toString (Int.ofNat n)).toList = Nat.toDigits 10 n :=
  Nat.toList_repr

theorem toList_toString_negSucc (n : Nat) :
    (toString (Int.negSucc n)).toList = '-' :: Nat.toDigits 10 (n + 1) := by
  show ("-" ++ Nat.repr (n + 1)).toList = _
  rw [String.toList_append, Nat.toList_repr]
  rfl

/-- An integer of 128 bits is spelt in decimal. -/
theorem spells_integer {v : Int} (hfits : integerFits 10 v = true) :
    Spells (toString v).toList (.int v) := by
  cases v with
  | ofNat n =>
    rw [toList_toString_ofNat]
    exact spells_decimal false n hfits
  | negSucc n =>
    rw [toList_toString_negSucc]
    exact spells_decimal true (n + 1) hfits

theorem spells_natural {n : Nat} (hn : n < 2 ^ 127) : Spells (toString n).toList (.int n) := by
  refine spells_integer (v := n) ?_
  simp [integerFits]
  omega

/-- A number below `2 ^ 127` is spelt in hexadecimal. -/
theorem spells_hex {n : Nat} (hn : n < 2 ^ 127) : Spells (Numeral.hex n).toList (.int n) := by
  have hdigits : ∀ c ∈ Nat.toDigits 16 n, Numeral.isDigit 16 c = true :=
    fun c ↦ Numeral.isDigit_of_mem_toDigits (by decide) (by decide)
  have hfits : integerFits 16 n = true := by
    simp [integerFits]
    omega
  have hword : Spells ('0' :: 'x' :: Nat.toDigits 16 n) (.int n) := by
    refine spells_of_scanNumber false (by decide) fun rest hrest ↦ ?_
    have hstop := hrest.stops (p := Numeral.isDigit 16) (by decide) (by decide)
    simp [scanNumber, takeWhile_append_stop hdigits hstop, dropWhile_append_stop hdigits hstop,
      scanInteger, integerToken?, Numeral.value_toDigits, hfits, Nat.toDigits_ne_nil]
  simpa [Numeral.hex] using hword

/-- A quoted text that is not over yet never goes on in a quote without a backslash. -/
theorem head?_quoteChars {text : List Char} (hne : text ≠ []) (rest : List Char) :
    ∃ c cs, Text.quoteChars text ++ rest = c :: cs ∧ c ≠ '"' := by
  cases text with
  | nil => exact absurd rfl hne
  | cons c text =>
    by_cases hc : c = '"'
    · exact ⟨'\\', _, by simp [Text.quoteChars, hc]; rfl, by decide⟩
    · exact ⟨c, _, by simp [Text.quoteChars, hc]; rfl, hc⟩

/-- What stands inside a literal is read as the text that it was made from, unless a backslash at
its end meets a quote. -/
theorem unquote?_quoteChars_append {text rest : List Char}
    (h : text.getLast? = some '\\' → rest.head? ≠ some '"') :
    Text.unquote? (Text.quoteChars text ++ rest) =
      (Text.unquote? rest).map fun read ↦ (text ++ read.1, read.2) := by
  induction text with
  | nil => exact Option.map_id'.symm
  | cons c text ih =>
    have htext : text.getLast? = some '\\' → rest.head? ≠ some '"' := by
      cases text with
      | nil => simp
      | cons c' text => simpa using h
    have ih := ih htext
    by_cases hc : c = '"'
    · subst hc
      show Text.unquote? ('\\' :: '"' :: (Text.quoteChars text ++ rest)) = _
      rw [Text.unquote?, ih, Option.map_map]
      rfl
    · have hcons : Text.quoteChars (c :: text) ++ rest = c :: (Text.quoteChars text ++ rest) := by
        simp [Text.quoteChars, hc]
      rw [hcons, Text.unquote?.eq_4 c _ hc, ih, Option.map_map]
      · rfl
      · rintro cs rfl heq
        by_cases hne : text = []
        · subst hne
          exact h rfl (congrArg List.head? heq)
        · obtain ⟨d, ds, hd, hquote⟩ := head?_quoteChars hne rest
          rw [heq] at hd
          exact hquote (List.cons.inj hd).1.symm

/-- A text is read back from its quoted form, unless it ends in a backslash. -/
theorem unquote?_quoteChars {text : List Char} (h : text.getLast? ≠ some '\\') (rest : List Char) :
    Text.unquote? (Text.quoteChars text ++ '"' :: rest) = some (text, rest) := by
  rw [unquote?_quoteChars_append fun hlast ↦ absurd hlast h, Text.unquote?, Option.map_some,
    List.append_nil]

/-- A text is spelt between quotes, unless its last character would take the closing quote in. -/
theorem spells_quoted {text : String} (h : text.toList.getLast? ≠ some '\\') :
    Spells (Text.quoted text).toList (.str text) := by
  refine ⟨'"', Text.quoteChars text.toList ++ ['"'], by simp [Text.quoted], by decide, by decide,
    by decide, fun rest _ ↦ ?_⟩
  have hunquote := unquote?_quoteChars h rest
  simp [scan, scanString, hunquote]

/-! ## Floating-point numbers -/

section Floats

variable (negative : Bool) {digits fraction rest : List Char}

theorem scanFraction_append (hne : fraction ≠ []) (hfraction : ∀ c ∈ fraction, c.isDigit = true)
    (hrest : ∀ c ∈ rest.head?, c.isDigit = false) :
    scanFraction ('.' :: (fraction ++ rest)) = (some fraction, rest) := by
  cases fraction with
  | nil => exact absurd rfl hne
  | cons c fraction =>
    have hc := hfraction c List.mem_cons_self
    have hcs : ∀ d ∈ fraction, d.isDigit = true := fun d hd ↦
      hfraction d (List.mem_cons_of_mem c hd)
    simp only [List.cons_append, scanFraction, hc, if_true, takeWhile_append_stop hcs hrest,
      dropWhile_append_stop hcs hrest]

theorem scanExponentDigits_append (n : Nat) (hrest : EndsWord rest) :
    scanExponentDigits negative (Nat.toDigits 10 n ++ rest) =
      some (if negative then -(n : Int) else n, rest) := by
  have hdigits : ∀ c ∈ Nat.toDigits 10 n, c.isDigit = true := fun c ↦ isDigit_of_mem_toDigits_ten
  have hvalue : Numeral.value 10 (Nat.toDigits 10 n) = n :=
    Numeral.value_toDigits (by decide) (by decide) n
  have hstop := hrest.stops (p := Char.isDigit) (by decide) (by decide)
  cases hcs : Nat.toDigits 10 n with
  | nil => exact absurd hcs Nat.toDigits_ne_nil
  | cons c cs =>
    rw [hcs] at hdigits hvalue
    have hc := hdigits c List.mem_cons_self
    have htail : ∀ d ∈ cs, d.isDigit = true := fun d hd ↦ hdigits d (List.mem_cons_of_mem c hd)
    simp only [List.cons_append, scanExponentDigits, hc, if_true, takeWhile_append_stop htail hstop,
      dropWhile_append_stop htail hstop, hvalue]

/-- An exponent is read back from its text. -/
theorem scanExponent_append (exponent : Int) (hrest : EndsWord rest) :
    scanExponent ('e' :: ((toString exponent).toList ++ rest)) = some (exponent, rest) := by
  cases exponent with
  | ofNat n =>
    rw [toList_toString_ofNat, scanExponent.eq_def]
    simp only [beq_self_eq_true, Bool.true_or, if_true]
    have hplain : ∀ c ∈ (Nat.toDigits 10 n ++ rest).head?, c ≠ '+' ∧ c ≠ '-' := by
      intro c hc
      obtain ⟨d, ds, hds⟩ := List.exists_cons_of_ne_nil (Nat.toDigits_ne_nil (n := n) (b := 10))
      obtain rfl : d = c := by simpa [hds] using hc
      have hname : continuesName d = true :=
        continuesName_of_isDigit (isDigit_of_mem_toDigits_ten (hds ▸ List.mem_cons_self))
      exact ⟨ne_of_continuesName hname (by decide), ne_of_continuesName hname (by decide)⟩
    split
    · next heq => exact absurd rfl (hplain '+' (by rw [heq]; rfl)).1
    · next heq => exact absurd rfl (hplain '-' (by rw [heq]; rfl)).2
    · exact scanExponentDigits_append false n hrest
  | negSucc n =>
    rw [toList_toString_negSucc]
    exact scanExponentDigits_append true (n + 1) hrest

theorem spells_pointed (hne : digits ≠ []) (hdigits : ∀ c ∈ digits, c.isDigit = true)
    (hne' : fraction ≠ []) (hfraction : ∀ c ∈ fraction, c.isDigit = true) :
    Spells (signed negative (digits ++ '.' :: fraction))
      (floatToken negative digits fraction 0) := by
  refine spells_of_scanDecimal negative hne hdigits (by simp) fun rest hrest ↦ ?_
  have hstop : ∀ c ∈ ('.' :: fraction ++ rest).head?, c.isDigit = false := by simp
  have hend := hrest.stops (p := Char.isDigit) (by decide) (by decide)
  have hscan : scanFraction ('.' :: fraction ++ rest) = (some fraction, rest) :=
    scanFraction_append hne' hfraction hend
  have hat : atName ('.' :: fraction ++ rest) = false := rfl
  rw [scanDecimal]
  simp only [takeWhile_append_stop hdigits hstop, dropWhile_append_stop hdigits hstop, hat, hscan,
    hrest.scanExponent, Bool.and_false, Bool.false_and, Bool.false_eq_true, if_false]

/-- With an exponent the fraction and its point may be missing. -/
theorem spells_scientific (exponent : Int) (hne : digits ≠ [])
    (hdigits : ∀ c ∈ digits, c.isDigit = true) (hfraction : ∀ c ∈ fraction, c.isDigit = true) :
    Spells (signed negative (digits ++
      ((if fraction = [] then [] else '.' :: fraction) ++ 'e' :: (toString exponent).toList)))
      (floatToken negative digits fraction exponent) := by
  by_cases hnil : fraction = []
  · rw [if_pos hnil]
    refine spells_of_scanDecimal negative hne hdigits (by simp) fun rest hrest ↦ ?_
    have hstop : ∀ c ∈ ('e' :: ((toString exponent).toList ++ rest)).head?, c.isDigit = false := by
      simp
    have hscan : scanFraction ('e' :: ((toString exponent).toList ++ rest)) =
        (none, 'e' :: ((toString exponent).toList ++ rest)) := by
      simp [scanFraction]
    have hexponent := scanExponent_append exponent hrest
    rw [List.nil_append, List.cons_append, scanDecimal]
    simp only [takeWhile_append_stop hdigits hstop, dropWhile_append_stop hdigits hstop, hscan,
      hexponent, Option.isNone_some, Bool.and_false, Bool.false_eq_true, if_false, hnil]
  · rw [if_neg hnil]
    refine spells_of_scanDecimal negative hne hdigits (by simp) fun rest hrest ↦ ?_
    have hstop : ∀ c ∈ ('.' :: (fraction ++ 'e' :: ((toString exponent).toList ++ rest))).head?,
        c.isDigit = false := by simp
    have hscan : scanFraction ('.' :: (fraction ++ 'e' :: ((toString exponent).toList ++ rest))) =
        (some fraction, 'e' :: ((toString exponent).toList ++ rest)) :=
      scanFraction_append hnil hfraction (by simp)
    have hat : atName ('.' :: (fraction ++ 'e' :: ((toString exponent).toList ++ rest))) = false :=
      rfl
    have hexponent := scanExponent_append exponent hrest
    simp only [List.cons_append, List.append_assoc]
    rw [scanDecimal]
    simp only [takeWhile_append_stop hdigits hstop, dropWhile_append_stop hdigits hstop, hscan, hat,
      hexponent, Bool.and_false, Bool.false_and, Bool.false_eq_true, if_false]

end Floats

end SpirvText.Lexer
