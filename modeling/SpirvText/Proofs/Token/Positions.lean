import SpirvText.Proofs.Token.LineByLine

/-!
# The lines that tokens are on

A source is a row of pieces, each of them a token with the blanks and the comment in front of it.  A
token is on the line that is one more than the line breaks in front of its first character, whether
they are tokens of their own or stand in strings, and an error of the lexer is on the line of the
character that begins no token (`onItsLine_tokenize`).
-/

namespace SpirvText.Lexer

/-- A token of a source, with the characters that it is read from and those between it and the token
before: a line end, or a word that spells it. -/
structure Piece where
  gap : List Char
  word : List Char
  token : Token
  isGap : IsGap gap
  spells : word = ['\n'] ∧ token = .newline ∨ Spells word token

namespace Piece

def text (p : Piece) : List Char := p.gap ++ p.word

/-- The tokens of pieces that come after `before`.  A token is on the line that is one more than the
line breaks in front of its first character. -/
def locate (before : List Char) : List Piece → List Located
  | [] => []
  | p :: pieces =>
    ⟨p.token, 1 + (before ++ p.gap).count '\n'⟩ :: locate (before ++ p.text) pieces

end Piece

open Piece

/-- The outcome of reading the characters `cs`, which come after `before`, with every token on the
line of its first character: the tokens that were read and the end of the source behind them, or
else what could not be read. -/
inductive OnItsLine (before cs : List Char) : Except ReadError (List Located) → Prop
  | ok (pieces : List Piece) {gap : List Char} : IsGap gap → cs = pieces.flatMap text ++ gap →
    OnItsLine before cs (.ok (locate before pieces ++ [⟨.eof, 1 + (before ++ cs).count '\n'⟩]))
  | error (pieces : List Piece) {gap rest : List Char} {c : Char} {cause : ReadCause} :
    IsGap gap → cs = pieces.flatMap text ++ gap ++ c :: rest →
    isBlank c = false → c ≠ ';' → c ≠ '\n' → scan c rest = .error cause →
    OnItsLine before cs (.error ⟨1 + (before ++ pieces.flatMap text ++ gap).count '\n', cause⟩)

namespace OnItsLine

variable {before cs : List Char} {result : Except ReadError (List Located)}

/-- One more piece in front. -/
theorem cons (p : Piece) (h : OnItsLine (before ++ p.text) cs result) :
    OnItsLine before (p.text ++ cs) (result.map (⟨p.token, 1 + before.count '\n'⟩ :: ·)) := by
  have hline : (⟨p.token, 1 + before.count '\n'⟩ : Located) =
      ⟨p.token, 1 + (before ++ p.gap).count '\n'⟩ := by
    rw [List.count_append, p.isGap.count, Nat.add_zero]
  rw [hline]
  cases h with
  | ok pieces hgap hcs =>
    rw [List.append_assoc before]
    refine .ok (p :: pieces) hgap ?_
    rw [List.flatMap_cons, List.append_assoc, ← hcs]
  | error pieces hgap hcs hblank hsemi hnewline hscan =>
    rw [List.append_assoc before, ← List.flatMap_cons]
    refine .error (p :: pieces) hgap ?_ hblank hsemi hnewline hscan
    rw [List.flatMap_cons, List.append_assoc, List.append_assoc, hcs, List.append_assoc]

end OnItsLine

/-- What is not skipped begins neither with a blank nor with a comment. -/
theorem of_skipBlanks_cons {cs rest : List Char} {c : Char} (h : skipBlanks cs = c :: rest) :
    isBlank c = false ∧ c ≠ ';' := by
  fun_induction skipBlanks cs with
  | case1 => cases h
  | case2 _ _ _ ih => exact ih h
  | case3 d cs _ _ =>
    have hstop := List.head?_dropWhile_not (· != '\n') cs
    rw [h] at hstop
    obtain rfl : c = '\n' := by simpa using hstop
    decide
  | case4 d cs hblank hsemi =>
    cases h
    exact ⟨by simpa using hblank, by simpa using hsemi⟩

/-- Every token is on the line of its first character. -/
theorem onItsLine_tokens {before cs : List Char} {line : Nat}
    (hline : line = 1 + before.count '\n') : OnItsLine before cs (tokens line cs) := by
  induction line, cs using tokens.induct generalizing before with
  | case1 line cs hskip =>
    obtain ⟨gap, hgap, hcs⟩ := exists_isGap cs
    rw [hskip, List.append_nil] at hcs
    subst hcs
    have hcount : 1 + (before ++ cs).count '\n' = line := by
      rw [List.count_append, hgap.count, Nat.add_zero, hline]
    rw [tokens_of_skipBlanks_nil hskip, ← hcount]
    exact .ok [] hgap rfl
  | case2 line cs c rest hskip hc ih =>
    obtain rfl : c = '\n' := by simpa using hc
    obtain ⟨gap, hgap, hcs⟩ := exists_isGap cs
    let p : Piece := ⟨gap, ['\n'], .newline, hgap, .inl ⟨rfl, rfl⟩⟩
    have hnext : line + 1 = 1 + (before ++ p.text).count '\n' := by
      rw [text, List.count_append, List.count_append, hgap.count, hline]
      rfl
    have hcs' : cs = p.text ++ rest := by
      rw [text, List.append_assoc, List.singleton_append, ← hskip, ← hcs]
    rw [tokens_of_skipBlanks_newline hskip, hcs']
    subst hline
    exact (ih hnext).cons p
  | case3 line cs c rest hskip hc cause hscan =>
    obtain ⟨gap, hgap, hcs⟩ := exists_isGap cs
    obtain ⟨hblank, hsemi⟩ := of_skipBlanks_cons hskip
    have hnewline : c ≠ '\n' := by simpa using hc
    have hcount : 1 + (before ++ [] ++ gap).count '\n' = line := by
      rw [List.append_nil, List.count_append, hgap.count, Nat.add_zero, hline]
    rw [hskip] at hcs
    rw [tokens_of_scan_error hskip hnewline hscan, ← hcount]
    exact .error [] hgap hcs hblank hsemi hnewline hscan
  | case4 line cs c rest hskip hc t rest' hscan ih =>
    obtain ⟨gap, hgap, hcs⟩ := exists_isGap cs
    obtain ⟨hblank, hsemi⟩ := of_skipBlanks_cons hskip
    have hnewline : c ≠ '\n' := by simpa using hc
    obtain ⟨w, rfl, hbreaks, hread⟩ := takes_scan hscan
    let p : Piece := ⟨gap, c :: w, t, hgap,
      .inr ⟨c, w, rfl, hblank, hsemi, hnewline, fun rest hrest ↦ hread rest (.stop hrest)⟩⟩
    have hnext : line + t.lineBreaks = 1 + (before ++ p.text).count '\n' := by
      rw [text, List.count_append, List.count_append, hgap.count, List.count_cons_of_ne hnewline,
        hbreaks, hline]
      omega
    have hcs' : cs = p.text ++ rest' := by
      rw [text, List.append_assoc, List.cons_append, ← hskip, ← hcs]
    rw [tokens_of_scan hskip hnewline hscan, hcs']
    subst hline
    exact (ih hnext).cons p

/-- Every token of a source is on the line of its first character. -/
theorem onItsLine_tokenize (source : String) : OnItsLine [] source.toList (tokenize source) :=
  onItsLine_tokens rfl

/-! ## From the first line to the last -/

/-- The lines of a text go from the first to the one behind its last line break. -/
def HasLine (cs : List Char) (line : Nat) : Prop := 1 ≤ line ∧ line ≤ 1 + cs.count '\n'

theorem hasLine_append (before rest : List Char) :
    HasLine (before ++ rest) (1 + before.count '\n') := by
  refine ⟨Nat.le_add_right 1 _, ?_⟩
  rw [List.count_append]
  omega

theorem hasLine_of_mem_locate {before : List Char} {pieces : List Piece} {t : Located}
    (h : t ∈ locate before pieces) : HasLine (before ++ pieces.flatMap text) t.line := by
  induction pieces generalizing before with
  | nil => cases h
  | cons p pieces ih =>
    rcases List.mem_cons.mp h with rfl | h
    · rw [List.flatMap_cons, text, List.append_assoc, ← List.append_assoc]
      exact hasLine_append _ _
    · rw [List.flatMap_cons, ← List.append_assoc]
      exact ih h

/-- The tokens of a source are on lines that it has. -/
theorem hasLine_of_tokenize {source : String} {ts : List Located} (h : tokenize source = .ok ts) :
    ∀ t ∈ ts, HasLine source.toList t.line := by
  have hlines := onItsLine_tokenize source
  rw [h] at hlines
  cases hlines with
  | ok pieces hgap hsource =>
    intro t ht
    rcases List.mem_append.mp ht with ht | ht
    · rw [hsource]
      obtain ⟨hfirst, hlast⟩ := hasLine_of_mem_locate ht
      refine ⟨hfirst, hlast.trans ?_⟩
      rw [List.nil_append, List.count_append]
      omega
    · obtain rfl := List.mem_singleton.mp ht
      exact ⟨Nat.le_add_right 1 _, Nat.le_refl _⟩

theorem hasLine_of_tokenize_error {source : String} {e : ReadError}
    (h : tokenize source = .error e) : HasLine source.toList e.line := by
  have hlines := onItsLine_tokenize source
  rw [h] at hlines
  cases hlines with
  | error pieces hgap hsource =>
    rw [hsource]
    exact hasLine_append _ _

/-! ## A counter of 32 bits

A counter of 32 bits starts over when it is full.  It still has the line of every token as far as 32
bits tell, which is the line itself in every source of fewer lines. -/

/-- The tokens of characters, with the lines from a counter of 32 bits. -/
def wrappingTokens (line : UInt32) (cs : List Char) :
    Except (UInt32 × ReadCause) (List (Token × UInt32)) :=
  match _h : skipBlanks cs with
  | [] => .ok [(.eof, line)]
  | c :: rest =>
    if c == '\n' then (wrappingTokens (line + 1) rest).map ((.newline, line) :: ·)
    else
      match _hs : scan c rest with
      | .error cause => .error (line, cause)
      | .ok (t, rest') =>
        (wrappingTokens (line + .ofNat t.lineBreaks) rest').map ((t, line) :: ·)
termination_by cs.length
decreasing_by
  · have := length_skipBlanks_le cs
    rw [_h, List.length_cons] at this
    omega
  · have := length_skipBlanks_le cs
    have := length_scan_le _hs
    rw [_h, List.length_cons] at *
    omega

/-- What 32 bits tell of the lines that tokens are on, or an error. -/
def wrap (result : Except ReadError (List Located)) :
    Except (UInt32 × ReadCause) (List (Token × UInt32)) :=
  (result.map (·.map fun t ↦ (t.token, .ofNat t.line))).mapError fun e ↦ (.ofNat e.line, e.cause)

theorem wrap_map_cons (t : Token) (line : Nat) (result : Except ReadError (List Located)) :
    wrap (result.map (⟨t, line⟩ :: ·)) = (wrap result).map ((t, .ofNat line) :: ·) := by
  cases result <;> rfl

/-- A counter of 32 bits counts as one without end does. -/
theorem wrappingTokens_ofNat (line : Nat) (cs : List Char) :
    wrappingTokens (.ofNat line) cs = wrap (tokens line cs) := by
  generalize hcounter : UInt32.ofNat line = counter
  fun_induction wrappingTokens counter cs generalizing line with
  | case1 counter cs hskip =>
    rw [tokens_of_skipBlanks_nil hskip, ← hcounter]
    rfl
  | case2 counter cs c rest hskip hc ih =>
    obtain rfl : c = '\n' := by simpa using hc
    have hnext : UInt32.ofNat (line + 1) = counter + 1 := by
      rw [UInt32.ofNat_add, hcounter]
      rfl
    rw [tokens_of_skipBlanks_newline hskip, wrap_map_cons, ih (line + 1) hnext, hcounter]
  | case3 counter cs c rest hskip hc cause hscan =>
    have hnewline : c ≠ '\n' := by simpa using hc
    rw [tokens_of_scan_error hskip hnewline hscan, ← hcounter]
    rfl
  | case4 counter cs c rest hskip hc t rest' hscan ih =>
    have hnewline : c ≠ '\n' := by simpa using hc
    have hnext : UInt32.ofNat (line + t.lineBreaks) = counter + .ofNat t.lineBreaks := by
      rw [UInt32.ofNat_add, hcounter]
    rw [tokens_of_scan hskip hnewline hscan, wrap_map_cons, ih _ hnext, hcounter]

/-- In a source of fewer than `2 ^ 32` lines 32 bits tell every line. -/
theorem toNat_of_hasLine {cs : List Char} {line : Nat} (h : HasLine cs line)
    (hcs : 1 + cs.count '\n' < 2 ^ 32) : (UInt32.ofNat line).toNat = line :=
  UInt32.toNat_ofNat_of_lt' (Nat.lt_of_le_of_lt h.2 hcs)

/-- In a source of fewer than `2 ^ 32` lines the counter never starts over. -/
theorem wrappingTokens_eq_tokenize {source : String} (h : 1 + source.toList.count '\n' < 2 ^ 32) :
    ((wrappingTokens 1 source.toList).map (·.map fun t ↦ (⟨t.1, t.2.toNat⟩ : Located))).mapError
      (fun e ↦ (⟨e.1.toNat, e.2⟩ : ReadError)) = tokenize source := by
  have hwrap : wrappingTokens 1 source.toList = wrap (tokenize source) :=
    wrappingTokens_ofNat 1 source.toList
  rw [hwrap]
  cases hts : tokenize source with
  | error e =>
    have hline := toNat_of_hasLine (hasLine_of_tokenize_error hts) h
    exact congrArg (fun line ↦ Except.error (ReadError.mk line e.cause)) hline
  | ok ts =>
    have hlines : ∀ t ∈ ts, (⟨t.token, (UInt32.ofNat t.line).toNat⟩ : Located) = t := fun t ht ↦
      congrArg (Located.mk t.token) (toNat_of_hasLine (hasLine_of_tokenize hts t ht) h)
    refine congrArg Except.ok (List.map_map.trans ?_)
    exact (List.map_congr_left hlines).trans (List.map_id' ts)

end SpirvText.Lexer
