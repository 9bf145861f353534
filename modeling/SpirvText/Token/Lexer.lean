import SpirvText.ReadError
import SpirvText.Text.Quoted

/-!
# Reading tokens

A source is cut into tokens from left to right, each as long as it can be.  Blanks and comments,
which run from a semicolon to the end of the line, stand between tokens.  A run of digits that goes
on in letters is a name (`2D`), unless the letters make an exponent.
-/

namespace SpirvText

namespace Lexer

/-! ## Character classes -/

def isBlank (c : Char) : Bool := c == ' ' || c == '\t' || c == '\x0c' || c == '\r'

def startsName (c : Char) : Bool := c.isAlpha || c == '_'

def continuesName (c : Char) : Bool :=
  c.isAlphanum || c == '_' || c == '.' || c == '|' || c == '@' || c == '$'

/-- Drops blanks and a comment. -/
def skipBlanks : List Char → List Char
  | [] => []
  | c :: cs =>
    if isBlank c then skipBlanks cs
    else if c == ';' then cs.dropWhile (· != '\n')
    else c :: cs

/-! ## Tokens

Each of these reads one token and returns it with the characters after it. -/

/-- A name, of which `start` has been read. -/
def scanName (start cs : List Char) : Token × List Char :=
  (.ident (String.ofList (start ++ cs.takeWhile continuesName)), cs.dropWhile continuesName)

/-- A register, after its `%`. -/
def scanId (cs : List Char) : Except ReadCause (Token × List Char) :=
  let digits := cs.takeWhile Char.isDigit
  match Numeral.word? 10 digits with
  | some number => .ok (.id number, cs.dropWhile Char.isDigit)
  | none => .error (.invalidLiteral (String.ofList ('%' :: digits)))

def scanString (cs : List Char) : Except ReadCause (Token × List Char) :=
  match Text.unquote? cs with
  | some (text, rest) => .ok (.str (String.ofList text), rest)
  | none => .error .unterminatedString

/-- The integers that can be written: those of 128 bits.  The least of them can only be written in
decimal, for its magnitude does not fit on its own. -/
def integerFits (base : Nat) (v : Int) : Bool :=
  -2 ^ (127 : Nat) ≤ v && v < 2 ^ (127 : Nat) && (base == 10 || v != -2 ^ (127 : Nat))

/-- The integer whose magnitude is written `digits`. -/
def integerToken? (negative : Bool) (base : Nat) (digits : List Char) : Option Token :=
  let magnitude : Int := Numeral.value base digits
  let value := if negative then -magnitude else magnitude
  if !digits.isEmpty && integerFits base value then some (.int value) else none

/-- An integer whose magnitude is written `digits` after `mark`. -/
def scanInteger (negative : Bool) (base : Nat) (mark digits rest : List Char) :
    Except ReadCause (Token × List Char) :=
  match integerToken? negative base digits with
  | some t => .ok (t, rest)
  | none =>
    let sign := if negative then ['-'] else []
    .error (.invalidLiteral (String.ofList (sign ++ mark ++ digits)))

/-- The fraction that may follow the digits of a number: a point and at least one digit. -/
def scanFraction : List Char → Option (List Char) × List Char
  | '.' :: c :: cs =>
    if c.isDigit then (some (c :: cs.takeWhile Char.isDigit), cs.dropWhile Char.isDigit)
    else (none, '.' :: c :: cs)
  | cs => (none, cs)

/-- The digits of an exponent after its sign, at least one. -/
def scanExponentDigits (negative : Bool) : List Char → Option (Int × List Char)
  | [] => none
  | c :: cs =>
    if c.isDigit then
      let value : Int := Numeral.value 10 (c :: cs.takeWhile Char.isDigit)
      some (if negative then -value else value, cs.dropWhile Char.isDigit)
    else none

/-- The exponent that may follow: a letter `e`, an optional sign and at least one digit. -/
def scanExponent : List Char → Option (Int × List Char)
  | [] => none
  | c :: cs =>
    if c == 'e' || c == 'E' then
      match cs with
      | '+' :: cs => scanExponentDigits false cs
      | '-' :: cs => scanExponentDigits true cs
      | _ => scanExponentDigits false cs
    else none

/-- Whether a name could go on here. -/
def atName : List Char → Bool
  | c :: _ => startsName c
  | [] => false

def floatToken (negative : Bool) (digits fraction : List Char) (exponent : Int) : Token :=
  .float (Decimal.toBinary64 negative
    ⟨Numeral.value 10 (digits ++ fraction), exponent - fraction.length⟩)

/-- A decimal number after its sign, or a name that begins with digits.  A number with a sign is
never a name. -/
def scanDecimal (negative : Bool) (cs : List Char) : Except ReadCause (Token × List Char) :=
  let digits := cs.takeWhile Char.isDigit
  let rest := cs.dropWhile Char.isDigit
  if !negative && atName rest && (scanExponent rest).isNone then .ok (scanName digits rest)
  else
    let fraction := scanFraction rest
    match fraction.1, scanExponent fraction.2 with
    | none, none => scanInteger negative 10 [] digits fraction.2
    | some places, none => .ok (floatToken negative digits places 0, fraction.2)
    | none, some (exponent, rest) => .ok (floatToken negative digits [] exponent, rest)
    | some places, some (exponent, rest) => .ok (floatToken negative digits places exponent, rest)

def scanNumber (negative : Bool) (cs : List Char) : Except ReadCause (Token × List Char) :=
  match cs with
  | '0' :: x :: rest =>
    if x == 'x' || x == 'X' then
      scanInteger negative 16 ['0', x] (rest.takeWhile (Numeral.isDigit 16))
        (rest.dropWhile (Numeral.isDigit 16))
    else scanDecimal negative cs
  | _ => scanDecimal negative cs

def scan (c : Char) (cs : List Char) : Except ReadCause (Token × List Char) :=
  if c == '%' then scanId cs
  else if c == '"' then scanString cs
  else if c == '-' then
    match cs with
    | d :: _ => if d.isDigit then scanNumber true cs else .error (.unexpectedChar c)
    | [] => .error (.unexpectedChar c)
  else if c.isDigit then scanNumber false (c :: cs)
  else if startsName c then .ok (scanName [c] cs)
  else .error (.unexpectedChar c)

/-! ## Every token takes something -/

theorem length_dropWhile_le (p : Char → Bool) (cs : List Char) :
    (cs.dropWhile p).length ≤ cs.length :=
  (List.dropWhile_sublist p).length_le

theorem length_skipBlanks_le (cs : List Char) : (skipBlanks cs).length ≤ cs.length := by
  fun_induction skipBlanks cs with
  | case1 => exact Nat.le_refl _
  | case2 c cs _ ih => simp only [List.length_cons]; omega
  | case3 c cs _ _ =>
    have := length_dropWhile_le (· != '\n') cs
    simp only [List.length_cons]
    omega
  | case4 => exact Nat.le_refl _

theorem length_scanFraction_le (cs : List Char) : (scanFraction cs).2.length ≤ cs.length := by
  fun_cases scanFraction cs with
  | case1 c cs _ =>
    have := length_dropWhile_le Char.isDigit cs
    simp only [List.length_cons]
    omega
  | case2 => exact Nat.le_refl _
  | case3 => exact Nat.le_refl _

theorem length_lt_of_scanExponentDigits {negative : Bool} {cs rest : List Char} {v : Int}
    (h : scanExponentDigits negative cs = some (v, rest)) : rest.length < cs.length := by
  fun_cases scanExponentDigits negative cs with
  | case1 => simp [scanExponentDigits] at h
  | case2 c cs hc value =>
    simp only [scanExponentDigits, hc, if_true, Option.some.injEq, Prod.mk.injEq] at h
    have := length_dropWhile_le Char.isDigit cs
    simp only [← h.2, List.length_cons]
    omega
  | case3 c cs hc => simp [scanExponentDigits, hc] at h

theorem length_lt_of_scanExponent {cs rest : List Char} {v : Int}
    (h : scanExponent cs = some (v, rest)) : rest.length < cs.length := by
  unfold scanExponent at h
  split at h
  · cases h
  · split at h
    · split at h <;>
      · have := length_lt_of_scanExponentDigits h
        simp only [List.length_cons] at *
        omega
    · cases h

theorem rest_of_scanInteger {negative : Bool} {base : Nat} {mark digits rest rest' : List Char}
    {t : Token} (h : scanInteger negative base mark digits rest = .ok (t, rest')) :
    rest' = rest := by
  unfold scanInteger at h
  split at h <;> cases h
  rfl

theorem length_takeWhile_add_dropWhile (p : Char → Bool) (cs : List Char) :
    (cs.takeWhile p).length + (cs.dropWhile p).length = cs.length := by
  rw [← List.length_append, List.takeWhile_append_dropWhile]

theorem length_scanDecimal_lt {negative : Bool} {cs rest : List Char} {t : Token}
    (hne : cs.takeWhile Char.isDigit ≠ []) (h : scanDecimal negative cs = .ok (t, rest)) :
    rest.length < cs.length := by
  have hlen := length_takeWhile_add_dropWhile Char.isDigit cs
  have hpos := List.length_pos_iff.2 hne
  have hname := length_dropWhile_le continuesName (cs.dropWhile Char.isDigit)
  have hfrac := length_scanFraction_le (cs.dropWhile Char.isDigit)
  unfold scanDecimal at h
  simp only at h
  split at h
  · cases h
    omega
  · split at h
    · rw [rest_of_scanInteger h]
      omega
    · cases h
      omega
    · rename_i hexp
      have := length_lt_of_scanExponent hexp
      cases h
      omega
    · rename_i hexp
      have := length_lt_of_scanExponent hexp
      cases h
      omega

theorem length_scanNumber_lt {negative : Bool} {cs rest : List Char} {t : Token}
    (hne : cs.takeWhile Char.isDigit ≠ []) (h : scanNumber negative cs = .ok (t, rest)) :
    rest.length < cs.length := by
  unfold scanNumber at h
  split at h
  · split at h
    · rename_i digits _
      have := length_dropWhile_le (Numeral.isDigit 16) digits
      rw [rest_of_scanInteger h]
      simp only [List.length_cons]
      omega
    · exact length_scanDecimal_lt hne h
  · exact length_scanDecimal_lt hne h

/-- What comes after a token is no longer than what came after its first character. -/
theorem length_scan_le {c : Char} {cs rest : List Char} {t : Token}
    (h : scan c cs = .ok (t, rest)) : rest.length ≤ cs.length := by
  unfold scan at h
  split at h
  · unfold scanId at h
    simp only at h
    split at h <;> cases h
    exact length_dropWhile_le _ _
  · split at h
    · unfold scanString at h
      split at h <;> cases h
      rename_i heq
      exact Nat.le_of_lt (Text.length_lt_of_unquote? heq)
    · split at h
      · split at h
        · split at h
          · rename_i d cs _ hd
            exact Nat.le_of_lt (length_scanNumber_lt (by simp [hd]) h)
          · cases h
        · cases h
      · split at h
        · rename_i hd
          exact Nat.le_of_lt_succ (length_scanNumber_lt (by simp [hd]) h)
        · split at h <;> cases h
          exact length_dropWhile_le _ _

/-! ## Sources -/

/-- The tokens of characters that begin on line `line`. -/
def tokens (line : Nat) (cs : List Char) : Except ReadError (List Located) :=
  match _h : skipBlanks cs with
  | [] => .ok [⟨.eof, line⟩]
  | c :: rest =>
    if c == '\n' then do
      let more ← tokens (line + 1) rest
      return ⟨.newline, line⟩ :: more
    else
      match _hs : scan c rest with
      | .error cause => .error ⟨line, cause⟩
      | .ok (t, rest') => do
        let more ← tokens (line + t.lineBreaks) rest'
        return ⟨t, line⟩ :: more
termination_by cs.length
decreasing_by
  · have := length_skipBlanks_le cs
    rw [_h, List.length_cons] at this
    omega
  · have := length_skipBlanks_le cs
    have := length_scan_le _hs
    rw [_h, List.length_cons] at *
    omega

end Lexer

def tokenize (source : String) : Except ReadError (List Located) := Lexer.tokens 1 source.toList

end SpirvText
