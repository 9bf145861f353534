import SpirvText.Proofs.Token.Symbols

/-!
# Symbols as texts

A symbolic operand is written as a text of its own: one token, which is either a name or a number
(`symbols_read_back`).  A name token is just the characters that were read (`Lexer.Spells.ident`),
so what a category or a set makes of the token is what it makes of the text that was written.
-/

namespace SpirvText

namespace Lexer

/-! ## Names are what is written -/

theorem scanInteger_ne_ident {negative : Bool} {base : Nat} {mark digits rest rest' : List Char}
    {name : String} : scanInteger negative base mark digits rest ≠ .ok (.ident name, rest') := by
  intro h
  unfold scanInteger at h
  split at h
  · next heq =>
    obtain ⟨-, hint⟩ := Option.ite_none_right_eq_some.mp heq
    cases h
    cases hint
  · cases h

/-- A name that begins with digits takes up what was read, and has no sign. -/
theorem ident_of_scanDecimal {negative : Bool} {cs rest : List Char} {name : String}
    (h : scanDecimal negative cs = .ok (.ident name, rest)) :
    negative = false ∧ name.toList ++ rest = cs := by
  unfold scanDecimal at h
  dsimp only at h
  split at h
  · next hname =>
    simp only [Bool.and_eq_true, Bool.not_eq_true'] at hname
    refine ⟨hname.1.1, ?_⟩
    cases h
    rw [String.toList_ofList, List.append_assoc, List.takeWhile_append_dropWhile,
      List.takeWhile_append_dropWhile]
  · split at h
    · exact absurd h scanInteger_ne_ident
    · cases h
    · cases h
    · cases h

theorem ident_of_scanNumber {negative : Bool} {cs rest : List Char} {name : String}
    (h : scanNumber negative cs = .ok (.ident name, rest)) :
    negative = false ∧ name.toList ++ rest = cs := by
  unfold scanNumber at h
  split at h
  · split at h
    · exact absurd h scanInteger_ne_ident
    · exact ident_of_scanDecimal h
  · exact ident_of_scanDecimal h

/-- A name is read from its own characters. -/
theorem ident_of_scan {c : Char} {cs rest : List Char} {name : String}
    (h : scan c cs = .ok (.ident name, rest)) : name.toList ++ rest = c :: cs := by
  unfold scan at h
  split at h
  · unfold scanId at h
    dsimp only at h
    split at h <;> cases h
  split at h
  · unfold scanString at h
    split at h <;> cases h
  split at h
  · split at h
    · split at h
      · cases (ident_of_scanNumber h).1
      · cases h
    · cases h
  split at h
  · exact (ident_of_scanNumber h).2
  split at h
  · cases h
    rw [String.toList_ofList, List.append_assoc, List.takeWhile_append_dropWhile]
    rfl
  · cases h

theorem Spells.ident {text name : String} (h : Spells text.toList (.ident name)) : name = text := by
  obtain ⟨c, tail, htext, -, -, -, hscan⟩ := h
  have hname := ident_of_scan (hscan [] endsWord_nil)
  rw [List.append_nil, List.append_nil, ← htext] at hname
  exact String.toList_inj.mp hname

/-- A word without line breaks is one token of the line it is on. -/
theorem Spells.tokenize {text : String} {t : Token} (h : Spells text.toList t)
    (ht : t.lineBreaks = 0) : SpirvText.tokenize text = .ok [⟨t, 1⟩, ⟨.eof, 1⟩] := by
  have hend : Lexer.tokens 1 [] = .ok [⟨.eof, 1⟩] := tokens_of_skipBlanks_nil rfl 1
  have htokens := h.tokens endsWord_nil 1
  rw [List.append_nil, ht, hend] at htokens
  exact htokens

end Lexer

open Lexer

/-! ## What is taken for a symbol -/

/-- A token that stands for a word where names are read by `parse`: such a name, or the word as a
number. -/
def Token.StandsFor (parse : String → Option UInt32) (word : UInt32) : Token → Prop
  | .ident name => parse name = some word
  | .int v => v = word.toNat
  | _ => False

namespace Supply

variable {types : List (Reg × ScalarType)} {line : Nat} {stop : Located} {t : Token} {l : Nat}
  {word : UInt32}

theorem naturalWord?_eq_some {v : Int} : naturalWord? v = some word ↔ v = word.toNat := by
  constructor
  · intro h
    obtain ⟨hrange, hword⟩ := Option.ite_none_right_eq_some.mp h
    cases hword
    simp only [Bool.and_eq_true, decide_eq_true_eq] at hrange
    rw [wordOfInt, UInt32.toNat_ofNat']
    omega
  · rintro rfl
    exact naturalWord?_toNat word

/-- What is taken for a symbol is a name of the category or the word as a number. -/
theorem standsFor_of_symbol {c : Category}
    (h : (ofLine types line stop).symbol c ⟨t, l⟩ = .ok word) : t.StandsFor c.parse? word := by
  cases t with
  | ident name =>
    simp only [ofLine] at h
    split at h <;> cases h
    assumption
  | int v =>
    simp only [ofLine] at h
    split at h <;> cases h
    exact naturalWord?_eq_some.mp (by assumption)
  | _ => cases h

theorem standsFor_of_extNumber {set : ExtSet}
    (h : (ofLine types line stop).extNumber set ⟨t, l⟩ = .ok word) :
    t.StandsFor set.parseInstruction? word := by
  simp only [ofLine] at h
  split at h <;> cases h
  next hfound =>
    cases t with
    | ident name => exact hfound
    | int v => exact naturalWord?_eq_some.mp hfound
    | _ => cases hfound

end Supply

/-- A text that spells a token which stands for a word is that token and nothing else, and the token
is the text itself or the word as a number. -/
theorem Token.StandsFor.tokenize {parse : String → Option UInt32} {word : UInt32} {t : Token}
    {text : String} (h : t.StandsFor parse word) (htext : Spells text.toList t) :
    SpirvText.tokenize text = .ok [⟨t, 1⟩, ⟨.eof, 1⟩] ∧
      (t = .ident text ∧ parse text = some word ∨ t = .int word.toNat) := by
  cases t with
  | ident name =>
    obtain rfl := htext.ident
    exact ⟨htext.tokenize rfl, .inl ⟨rfl, h⟩⟩
  | int v => exact ⟨htext.tokenize rfl, .inr (congrArg Token.int h)⟩
  | _ => cases h

/-- The text of a symbolic operand, or of the number of an extended instruction, is one token: a
name, which is the whole text and has the word as its value, or the word as a number.  Where a line
is read, the word is taken from this token. -/
theorem symbols_read_back :
    (∀ (c : Category) (word : UInt32), ∃ t,
      tokenize (c.render word) = .ok [⟨t, 1⟩, ⟨.eof, 1⟩] ∧
        (t = .ident (c.render word) ∧ c.parse? (c.render word) = some word ∨
          t = .int word.toNat) ∧
        ∀ types line stop l, (Supply.ofLine types line stop).symbol c ⟨t, l⟩ = .ok word) ∧
      ∀ (set : ExtSet) (number : UInt32), ∃ t,
        tokenize (set.instructionName number) = .ok [⟨t, 1⟩, ⟨.eof, 1⟩] ∧
          (t = .ident (set.instructionName number) ∧
            set.parseInstruction? (set.instructionName number) = some number ∨
            t = .int number.toNat) ∧
          ∀ types line stop l,
            (Supply.ofLine types line stop).extNumber set ⟨t, l⟩ = .ok number := by
  constructor
  · intro c word
    obtain ⟨t, htext, hread⟩ := c.exists_spelling word
    have hstands := Supply.standsFor_of_symbol (hread [] 1 ⟨.eof, 1⟩ 1)
    obtain ⟨htokens, ht⟩ := hstands.tokenize htext
    exact ⟨t, htokens, ht, hread⟩
  · intro set number
    obtain ⟨t, htext, hread⟩ := set.exists_spelling number
    have hstands := Supply.standsFor_of_extNumber (hread [] 1 ⟨.eof, 1⟩ 1)
    obtain ⟨htokens, ht⟩ := hstands.tokenize htext
    exact ⟨t, htokens, ht, hread⟩

end SpirvText
