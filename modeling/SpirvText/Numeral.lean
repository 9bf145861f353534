/-!
# Numerals

Decimal and hexadecimal numerals: the value of a run of digits, and the reading of a 32-bit word.
-/

namespace SpirvText

-- `^` stands for powers of numbers in this namespace, also where every monoid has powers.
attribute [scoped instance (high)] instPowNat

/-- A 32-bit word read as a two's complement number. -/
def signedWord (w : UInt32) : Int :=
  if w.toNat < 2 ^ (31 : Nat) then w.toNat else w.toNat - 2 ^ (32 : Nat)

/-- The 32-bit word congruent to `v`. -/
def wordOfInt (v : Int) : UInt32 := .ofNat (v % 2 ^ (32 : Nat)).toNat

namespace Numeral

/-- The value of a digit; letters continue after nine, in either case. -/
def digitValue (c : Char) : Nat :=
  if c.isDigit then c.toNat - '0'.toNat
  else if c.isLower then c.toNat - 'a'.toNat + 10
  else c.toNat - 'A'.toNat + 10

/-- Whether `c` is a digit in base `base`, for a base up to sixteen. -/
def isDigit (base : Nat) (c : Char) : Bool :=
  (c.isDigit || c.isAlpha) && digitValue c < base

def value (base : Nat) (digits : List Char) : Nat :=
  digits.foldl (fun n c ↦ base * n + digitValue c) 0

/-- Reads a 32-bit word: an optional plus sign, then at least one digit. -/
def word? (base : Nat) (cs : List Char) : Option UInt32 :=
  let digits := match cs with
    | '+' :: rest => rest
    | _ => cs
  if digits.isEmpty || !digits.all (isDigit base) then none
  else if value base digits < 2 ^ (32 : Nat) then some (.ofNat (value base digits))
  else none

/-- A number in lower-case hexadecimal, marked as such. -/
def hex (n : Nat) : String := "0x" ++ String.ofList (Nat.toDigits 16 n)

end Numeral

end SpirvText
