import SpirvText.Binary

/-!
# Decimal text of floating-point numbers

A decimal number is a whole coefficient times a power of ten.  Reading one takes the nearest
64-bit number.  Writing a 64-bit number takes the decimal with the fewest digits that reads back as
the same number, and among those the nearest to it.
-/

namespace SpirvText

/-- The number `coefficient * 10 ^ exponent`. -/
structure Decimal where
  coefficient : Nat
  exponent : Int
  deriving DecidableEq, Repr

namespace Decimal

def digitCount (x : Decimal) : Nat := (Nat.toDigits 10 x.coefficient).length

/-- The place of the first digit: the number lies below `10 ^ place`, and not below a tenth of
that if it is not zero. -/
def place (x : Decimal) : Int := x.digitCount + x.exponent

/-- Strips trailing zeros off the coefficient, at most `n` of them. -/
def strip : Nat → Decimal → Decimal
  | 0, x => x
  | n + 1, x =>
    if x.coefficient != 0 && x.coefficient % 10 == 0 then
      strip n ⟨x.coefficient / 10, x.exponent + 1⟩
    else x

/-- The magnitude of the nearest 64-bit number.  Every finite one lies below `10 ^ 309`, and what
lies below `10 ^ (-324)` is nearest to zero, so numbers far outside are not worked out. -/
def toMagnitude (x : Decimal) : Nat :=
  if x.coefficient = 0 ∨ x.place < -400 then 0
  else if 400 < x.place then Format.double.infinity
  else if 0 ≤ x.exponent then Format.double.round (x.coefficient * 10 ^ x.exponent.toNat) 1
  else Format.double.round x.coefficient (10 ^ (-x.exponent).toNat)

def toBinary64 (negative : Bool) (x : Decimal) : Binary64 :=
  .ofMagnitude negative x.toMagnitude

/-! ## The shortest decimal -/

/-- The place of the first digit of a positive finite magnitude.  Scaled up by `10 ^ 400` it is
above one, so that the digits of its whole part can be counted. -/
def placeOf (magnitude : Nat) : Int :=
  let scaled := Format.double.units magnitude * 10 ^ (400 : Nat) / 2 ^ Format.double.scale
  (Nat.toDigits 10 scaled).length - 400

/-- The decimal with at most `n` digits that reads back as `magnitude`, if there is one: of the two
neighbours on the grid of `n` digits the nearer one that does, and the larger if both are equally
near. -/
def candidate? (magnitude : Nat) (place : Int) (n : Nat) : Option Decimal :=
  let exponent := place - n
  let num := Format.double.units magnitude * 10 ^ (-exponent).toNat
  let den := 2 ^ Format.double.scale * 10 ^ exponent.toNat
  let lower := strip n ⟨num / den, exponent⟩
  let upper := strip (n + 1) ⟨num / den + 1, exponent⟩
  let below := lower.toMagnitude == magnitude
  let above := upper.toMagnitude == magnitude
  if below && (!above || 2 * (num % den) < den) then some lower
  else if above then some upper
  else none

/-- The whole expansion of a finite magnitude. -/
def exact (magnitude : Nat) : Decimal :=
  ⟨Format.double.units magnitude * 5 ^ Format.double.scale, -Format.double.scale⟩

/-- The decimal with the fewest digits that reads back as `magnitude`.  Seventeen digits are always
enough. -/
def shortest (magnitude : Nat) : Decimal :=
  let place := placeOf magnitude
  ((List.range 17).findSome? fun n ↦ candidate? magnitude place (n + 1)).getD (exact magnitude)

/-! ## Notation -/

/-- Numbers from `10 ^ (-4)` up to `10 ^ 16` are written out, with a point and at least one digit on
either side of it.  All others are written with an exponent, and with a point only if there is more
than one digit. -/
def text (x : Decimal) : String :=
  let digits := Nat.toDigits 10 x.coefficient
  let place := x.place
  if -4 < place ∧ place ≤ 16 then
    if place ≤ 0 then
      "0." ++ String.ofList (List.replicate (-place).toNat '0' ++ digits)
    else
      let whole := digits.take place.toNat
      let fraction := digits.drop place.toNat
      let padding := List.replicate (place.toNat - digits.length) '0'
      String.ofList (whole ++ padding ++ '.' :: if fraction.isEmpty then ['0'] else fraction)
  else
    let point := if digits.length = 1 then [] else '.' :: digits.drop 1
    String.ofList (digits.take 1 ++ point ++ ['e']) ++ toString (place - 1)

end Decimal

/-- The text of a 64-bit number: the shortest decimal that reads back as it. -/
def Binary64.text (x : Binary64) : String :=
  let sign := if x.isNegative then "-" else ""
  if x.magnitude = 0 then sign ++ "0.0"
  else if x.isFinite then sign ++ (Decimal.shortest x.magnitude).text
  else if x.magnitude = Format.double.infinity then sign ++ "inf"
  else "NaN"

end SpirvText
