import SpirvText.Module.Reader
import SpirvText.Proofs.Token.Spelling

/-!
# Reading line by line

The reader goes through the tokens of a source from front to back, and where one line ends it goes
on with the next.  Tokens can as well be cut into lines first.  The end of a source is among its
tokens just once, as the last of them, and so both ways of reading are the same
(`Module.read_eq_readLines`).
-/

namespace SpirvText

/-! ## Lines -/

structure Line where
  tokens : List Located
  stop : Located
  deriving DecidableEq, Repr

namespace Line

/-- Cuts tokens into lines.  Tokens after the last line end are a line that the source ends. -/
def split : List Located → List Line
  | [] => []
  | t :: ts =>
    if t.token.isLineEnd then ⟨[], t⟩ :: split ts
    else
      match split ts with
      | [] => [⟨[t], ⟨.eof, t.line⟩⟩]
      | line :: lines => { line with tokens := t :: line.tokens } :: lines

theorem split_cons {stop : Located} (hstop : stop.token.isLineEnd = true)
    (more : List Located) : split (stop :: more) = ⟨[], stop⟩ :: split more := by
  rw [split, if_pos hstop]

/-- The first line goes up to the first token that ends a line. -/
theorem split_append {tokens : List Located} {stop : Located}
    (htokens : ∀ t ∈ tokens, t.token.isLineEnd = false) (hstop : stop.token.isLineEnd = true)
    (more : List Located) : split (tokens ++ stop :: more) = ⟨tokens, stop⟩ :: split more := by
  induction tokens with
  | nil => exact split_cons hstop more
  | cons t tokens ih =>
    have ht := htokens t List.mem_cons_self
    rw [List.cons_append, split, if_neg (by simp [ht]),
      ih fun u hu ↦ htokens u (List.mem_cons_of_mem _ hu)]

/-- The tokens of a line do not end it. -/
theorem mem_split {located : List Located} {line : Line} (hline : line ∈ split located) :
    ∀ t ∈ line.tokens, t ∈ located ∧ t.token.isLineEnd = false := by
  induction located generalizing line with
  | nil => cases hline
  | cons u located ih =>
    rw [split] at hline
    split at hline
    · rcases List.mem_cons.mp hline with rfl | hline
      · exact List.forall_mem_nil _
      · exact fun t ht ↦ ⟨List.mem_cons_of_mem _ (ih hline t ht).1, (ih hline t ht).2⟩
    · next hu =>
      have hfirst : u ∈ u :: located ∧ u.token.isLineEnd = false :=
        ⟨List.mem_cons_self, Bool.eq_false_iff.mpr hu⟩
      cases hsplit : split located with
      | nil =>
        rw [hsplit] at hline
        obtain rfl := List.mem_singleton.mp hline
        exact fun t ht ↦ List.mem_singleton.mp ht ▸ hfirst
      | cons next lines =>
        rw [hsplit] at hline ih
        intro t ht
        rcases List.mem_cons.mp hline with rfl | hline
        · rcases List.mem_cons.mp ht with rfl | ht
          · exact hfirst
          · obtain ⟨hmem, hend⟩ := ih List.mem_cons_self t ht
            exact ⟨List.mem_cons_of_mem _ hmem, hend⟩
        · obtain ⟨hmem, hend⟩ := ih (List.mem_cons_of_mem _ hline) t ht
          exact ⟨List.mem_cons_of_mem _ hmem, hend⟩

/-- The first line of tokens goes up to the first line end. -/
theorem split_of_dropWhile {ts more : List Located} {stop : Located}
    (h : ts.dropWhile (!·.token.isLineEnd) = stop :: more) :
    split ts = ⟨ts.takeWhile (!·.token.isLineEnd), stop⟩ :: split more := by
  have hstop : stop.token.isLineEnd = true := by
    have hhead := List.head?_dropWhile_not (!·.token.isLineEnd) ts
    rw [h] at hhead
    simpa using hhead
  have htokens : ∀ t ∈ ts.takeWhile (!·.token.isLineEnd), t.token.isLineEnd = false := by
    intro t ht
    simpa using List.mem_takeWhile_imp ht
  conv_lhs => rw [← List.takeWhile_append_dropWhile (p := (!·.token.isLineEnd)) (l := ts), h]
  exact split_append htokens hstop more

end Line

/-- Tokens end with the end of the source, which is not among them before. -/
theorem Lexer.exists_eof_of_tokens {line : Nat} {cs : List Char} {ts : List Located}
    (h : tokens line cs = .ok ts) :
    ∃ front last, ts = front ++ [⟨.eof, last⟩] ∧ ∀ t ∈ front, t.token ≠ .eof := by
  fun_induction tokens line cs generalizing ts with
  | case1 line =>
    cases h
    exact ⟨[], line, rfl, List.forall_mem_nil _⟩
  | case2 line _ _ _ _ _ ih =>
    obtain ⟨more, hmore, hcons⟩ := bind_eq_ok.mp h
    cases hcons
    obtain ⟨front, last, rfl, hfront⟩ := ih hmore
    exact ⟨⟨.newline, line⟩ :: front, last, rfl, List.forall_mem_cons.mpr ⟨by simp, hfront⟩⟩
  | case3 => cases h
  | case4 line _ _ _ _ _ t _ hscan ih =>
    obtain ⟨more, hmore, hcons⟩ := bind_eq_ok.mp h
    cases hcons
    obtain ⟨front, last, rfl, hfront⟩ := ih hmore
    refine ⟨⟨t, line⟩ :: front, last, rfl, List.forall_mem_cons.mpr ⟨?_, hfront⟩⟩
    rintro rfl
    cases (wellFormed_of_scan hscan).isLineEnd

theorem dropWhile_concat {p : Located → Bool} {stop : Located} (hp : p stop = false)
    (front : List Located) : (front ++ [stop]).dropWhile p = front.dropWhile p ++ [stop] := by
  have hstop : [stop].dropWhile p = [stop] :=
    List.dropWhile_cons_of_neg (Bool.eq_false_iff.mp hp)
  rw [List.dropWhile_append, hstop]
  split
  · next hempty => rw [List.isEmpty_iff.mp hempty, List.nil_append]
  · rfl

namespace Transcript

variable {ω ε α β γ : Type}

theorem bind_bind (x : Transcript ω ε α) (k : α → Transcript ω ε β) (l : β → Transcript ω ε γ) :
    x >>= k >>= l = x >>= fun a ↦ k a >>= l := by
  obtain ⟨entries, _ | a⟩ := x
  · rfl
  · cases h : (k a).result <;> simp [bind, h]

theorem liftM_ok_bind (a : α) (k : α → Transcript ω ε β) :
    (liftM (.ok a : Except ε α) : Transcript ω ε α) >>= k = k a := rfl

end Transcript

namespace Module

/-! ## Reading -/

/-- Reads lines and adds their instructions. -/
def readLines (context : ReadContext) (assembly : Assembly) :
    List Line → Transcript Event ReadError Assembly
  | [] => pure assembly
  | ⟨[], _⟩ :: lines => readLines context assembly lines
  | ⟨first :: rest, stop⟩ :: lines => do
    let (i, context) ← Instruction.read context first rest stop
    match assembly.add i with
    | .error reason => Transcript.fail ⟨first.line, .misplaced i.opcode reason⟩
    | .ok assembly => readLines context assembly lines

def lastLine (ts : List Located) : Nat := (ts.getLast?.map Located.line).getD 1

variable {ts more after : List Located} {first stop : Located}

/-- Where nothing but line ends is left before the end of the source, no more is read. -/
theorem readTokens_of_eof (h : ts.dropWhile (·.token == .newline) = stop :: after)
    (hstop : stop.token = .eof) (context : ReadContext) (a : Assembly) :
    readTokens context a ts = pure (a, stop :: after) := by
  rw [readTokens]
  split
  · next heq =>
    rw [h] at heq
    cases heq
  · next heq =>
    obtain ⟨rfl, rfl⟩ := List.cons.inj (h.symm.trans heq)
    rw [if_pos (beq_iff_eq.mpr hstop)]

/-- The reader takes one line and goes on where it ends. -/
theorem readTokens_of_ne_eof (h : ts.dropWhile (·.token == .newline) = first :: more)
    (hfirst : first.token ≠ .eof)
    (hmore : more.dropWhile (!·.token.isLineEnd) = stop :: after) (context : ReadContext)
    (a : Assembly) :
    readTokens context a ts = (do
      let (i, context) ← Instruction.read context first (more.takeWhile (!·.token.isLineEnd)) stop
      match a.add i with
      | .error reason => Transcript.fail ⟨first.line, .misplaced i.opcode reason⟩
      | .ok a => readTokens context a (stop :: after)) := by
  rw [readTokens]
  split
  · next heq =>
    rw [h] at heq
    cases heq
  · next heq =>
    obtain ⟨rfl, rfl⟩ := List.cons.inj (h.symm.trans heq)
    rw [if_neg (beq_iff_eq.not.mpr hfirst)]
    simp only [hmore]
    rfl

/-- Behind blank lines comes a token of a line, unless the source ends. -/
theorem isLineEnd_of_dropWhile (h : ts.dropWhile (·.token == .newline) = first :: more)
    (hfirst : first.token ≠ .eof) : first.token.isLineEnd = false := by
  have hhead : (first.token == .newline) = false := by
    simpa [h] using List.head?_dropWhile_not (·.token == .newline) ts
  revert hhead hfirst
  cases first.token <;> simp [Token.isLineEnd]

/-- Blank lines in front do not matter. -/
theorem readLines_split_dropWhile (context : ReadContext) (a : Assembly) (ts : List Located) :
    readLines context a (Line.split (ts.dropWhile (·.token == .newline))) =
      readLines context a (Line.split ts) := by
  induction ts with
  | nil => rfl
  | cons t ts ih =>
    by_cases ht : t.token = .newline
    · rw [List.dropWhile_cons, if_pos (beq_iff_eq.mpr ht), ih, Line.split_cons (by rw [ht]; rfl)]
      rfl
    · rw [List.dropWhile_cons, if_neg (beq_iff_eq.not.mpr ht)]

/-- The first instruction is read from the tokens up to the end of its line. -/
theorem readLines_split_cons (hfirst : first.token.isLineEnd = false)
    (hmore : more.dropWhile (!·.token.isLineEnd) = stop :: after) (context : ReadContext)
    (a : Assembly) :
    readLines context a (Line.split (first :: more)) = (do
      let (i, context) ← Instruction.read context first (more.takeWhile (!·.token.isLineEnd)) stop
      match a.add i with
      | .error reason => Transcript.fail ⟨first.line, .misplaced i.opcode reason⟩
      | .ok a => readLines context a (Line.split (stop :: after))) := by
  have hgoes : (!first.token.isLineEnd) = true := by rw [hfirst]; rfl
  have hstop : stop.token.isLineEnd = true := by
    have hhead := List.head?_dropWhile_not (!·.token.isLineEnd) more
    rw [hmore] at hhead
    simpa using hhead
  have hline : (first :: more).dropWhile (!·.token.isLineEnd) = stop :: after := by
    rw [List.dropWhile_cons, if_pos hgoes, hmore]
  rw [Line.split_of_dropWhile hline, List.takeWhile_cons, if_pos hgoes, Line.split_cons hstop]
  rfl

/-- Reading tokens up to the end of the source is reading their lines. -/
theorem readTokens_eq_readLines {front : List Located} (hfront : ∀ t ∈ front, t.token ≠ .eof)
    (hstop : stop.token = .eof) (context : ReadContext) (a : Assembly) :
    readTokens context a (front ++ [stop]) = (do
      let b ← readLines context a (Line.split (front ++ [stop]))
      return (b, [stop])) := by
  have hnewline : (stop.token == .newline) = false := by rw [hstop]; rfl
  have hend : (!stop.token.isLineEnd) = false := by rw [hstop]; rfl
  induction hn : front.length using Nat.strongRecOn generalizing front context a with
  | ind n ih =>
    have hdrop : (front ++ [stop]).dropWhile (·.token == .newline) = _ :=
      dropWhile_concat hnewline front
    rw [← readLines_split_dropWhile, hdrop]
    cases hlines : front.dropWhile (·.token == .newline) with
    | nil =>
      rw [hlines, List.nil_append] at hdrop
      rw [readTokens_of_eof hdrop hstop, List.nil_append, Line.split_cons (by rw [hstop]; rfl)]
      rfl
    | cons first rest =>
      rw [hlines, List.cons_append] at hdrop
      have hsub : (first :: rest).Sublist front := hlines ▸ List.dropWhile_sublist _
      have heof := hfront first (hsub.subset List.mem_cons_self)
      have hfirst := isLineEnd_of_dropWhile hlines heof
      have hafter : (rest ++ [stop]).dropWhile (!·.token.isLineEnd) = _ :=
        dropWhile_concat hend rest
      obtain ⟨next, after, hnext⟩ : ∃ next after,
          (rest ++ [stop]).dropWhile (!·.token.isLineEnd) = next :: after := by
        rw [hafter]
        exact List.exists_cons_of_ne_nil (List.concat_ne_nil _ _)
      have hrest : ∀ context a, readTokens context a (next :: after) = (do
          let b ← readLines context a (Line.split (next :: after))
          return (b, [stop])) := by
        have hlater := (List.dropWhile_sublist (l := rest) (!·.token.isLineEnd)).trans
          ((List.sublist_cons_self first rest).trans hsub)
        rw [← hnext, hafter]
        intro context a
        refine ih _ ?_ (fun t ht ↦ hfront t (hlater.subset ht)) context a rfl
        have hle := (List.dropWhile_sublist (l := rest) (!·.token.isLineEnd)).length_le
        have hlt := hsub.length_le
        rw [List.length_cons] at hlt
        omega
      rw [readTokens_of_ne_eof hdrop heof hnext, List.cons_append,
        readLines_split_cons hfirst hnext, Transcript.bind_bind]
      congr 1
      funext read
      obtain ⟨i, context⟩ := read
      cases hadd : a.add i with
      | error reason => simp only [hadd]; rfl
      | ok b => simp only [hadd]; exact hrest context b

/-- Reading a module is reading the lines of its tokens. -/
theorem read_eq_readLines (source name : String) : read source name = (do
    let ts ← tokenize source
    let assembly ← readLines {} {} (Line.split ts)
    if assembly.openFunction.isSome then
      Transcript.fail ⟨lastLine ts, .unexpectedToken .functionEnd .eof⟩
    else
      let m := Module.nameFunctions ⟨name, assembly.globals, assembly.functions⟩
      Transcript.put (.moduleRead m.name m.globals.length m.functions.length)
      return m) := by
  cases hts : tokenize source with
  | error e =>
    rw [read, hts]
    rfl
  | ok ts =>
    obtain ⟨front, last, rfl, hfront⟩ := Lexer.exists_eof_of_tokens hts
    have hline : currentLine (front ++ [⟨.eof, last⟩]) [⟨.eof, last⟩] =
        lastLine (front ++ [⟨.eof, last⟩]) := by
      rw [lastLine, List.getLast?_concat]
      rfl
    rw [read, hts, Transcript.liftM_ok_bind, Transcript.liftM_ok_bind,
      readTokens_eq_readLines hfront rfl, Transcript.bind_bind]
    congr 1
    funext a
    rw [← hline]
    rfl

end Module

end SpirvText
