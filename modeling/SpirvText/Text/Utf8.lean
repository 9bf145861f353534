/-!
# Text as bytes

The UTF-8 bytes of a text, and the text of any bytes at all: wherever the bytes are not UTF-8, the
longest run that could have begun a character is read as one replacement character.
-/

namespace SpirvText.Text

def bytes (text : String) : List UInt8 := text.toList.flatMap String.utf8EncodeChar

def replacement : Char := '\uFFFD'

def isContinuation (b : UInt8) : Bool := 0x80 ≤ b && b ≤ 0xBF

/-- How a first byte goes on: how many bytes follow it, and the bounds of the first of them.  The
bounds leave out overlong forms, surrogates and everything past the last code point. -/
def following? (b : UInt8) : Option (Nat × UInt8 × UInt8) :=
  if 0xC2 ≤ b && b ≤ 0xDF then some (1, 0x80, 0xBF)
  else if b == 0xE0 then some (2, 0xA0, 0xBF)
  else if b == 0xED then some (2, 0x80, 0x9F)
  else if 0xE1 ≤ b && b ≤ 0xEF then some (2, 0x80, 0xBF)
  else if b == 0xF0 then some (3, 0x90, 0xBF)
  else if 0xF1 ≤ b && b ≤ 0xF3 then some (3, 0x80, 0xBF)
  else if b == 0xF4 then some (3, 0x80, 0x8F)
  else none

/-- The bits that the first byte of a character with `n` more bytes contributes. -/
def leadBits (n : Nat) (b : UInt8) : Nat := b.toNat % (64 >>> n)

/-- Takes up to `n` continuation bytes on to a code point: the code point, how many bytes are
still missing, and the bytes after it. -/
def continueChar : Nat → Nat → List UInt8 → Nat × Nat × List UInt8
  | n + 1, code, b :: rest =>
    if isContinuation b then continueChar n (code * 64 + b.toNat % 64) rest
    else (code, n + 1, b :: rest)
  | n, code, rest => (code, n, rest)

theorem length_continueChar_le (n code : Nat) (rest : List UInt8) :
    (continueChar n code rest).2.2.length ≤ rest.length := by
  fun_induction continueChar n code rest with
  | case1 n code b rest _ ih => simp only [List.length_cons]; omega
  | case2 => exact Nat.le_refl _
  | case3 => exact Nat.le_refl _

/-- Reads one character that begins with `b`, and what comes after it. -/
def decodeChar (b : UInt8) (rest : List UInt8) : Char × List UInt8 :=
  if b < 0x80 then (Char.ofNat b.toNat, rest)
  else
    match following? b, rest with
    | some (n, low, high), c :: rest' =>
      if low ≤ c && c ≤ high then
        match continueChar (n - 1) (leadBits n b * 64 + c.toNat % 64) rest' with
        | (code, 0, rest'') => (Char.ofNat code, rest'')
        | (_, _, rest'') => (replacement, rest'')
      else (replacement, rest)
    | _, _ => (replacement, rest)

theorem length_decodeChar_le (b : UInt8) (rest : List UInt8) :
    (decodeChar b rest).2.length ≤ rest.length := by
  unfold decodeChar
  split
  · exact Nat.le_refl _
  · split
    · rename_i n low high c rest' _
      split
      · have h := length_continueChar_le (n - 1) (leadBits n b * 64 + c.toNat % 64) rest'
        split <;>
        · rename_i heq
          simp only [heq] at h
          simp only [List.length_cons]
          omega
      · exact Nat.le_refl _
    · exact Nat.le_refl _

def decodeChars : List UInt8 → List Char
  | [] => []
  | b :: rest => (decodeChar b rest).1 :: decodeChars (decodeChar b rest).2
termination_by bs => bs.length
decreasing_by
  have := length_decodeChar_le b rest
  simp only [List.length_cons]
  omega

def ofBytes (bs : List UInt8) : String := String.ofList (decodeChars bs)

end SpirvText.Text
