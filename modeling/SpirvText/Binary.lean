import SpirvText.Numeral

/-!
# Binary floating-point formats

A format has a number of fraction bits and a number of exponent bits below the sign.  Leaving the
sign aside, the bit patterns of the finite numbers ascend with their values, and every value is a
whole multiple, `units`, of the smallest positive one.  With `p` fraction bits, a pattern `b` whose
exponent field is `e + 1` (or zero, then `e = 0`) stands for `(b - e * 2 ^ p) * 2 ^ e` units, and
rounding a quotient to the nearest pattern is a division by `2 ^ e` units that rounds to nearest.
-/

namespace SpirvText

/-- Divides and rounds to the nearest whole number, a half to the even one. -/
def roundDiv (n d : Nat) : Nat :=
  if 2 * (n % d) < d then n / d
  else if d < 2 * (n % d) then n / d + 1
  else n / d + n / d % 2

structure Format where
  fractionBits : Nat
  exponentBits : Nat

namespace Format

def half : Format := ⟨10, 5⟩

def single : Format := ⟨23, 8⟩

def double : Format := ⟨52, 11⟩

def signBit (f : Format) : Nat := 2 ^ (f.exponentBits + f.fractionBits)

/-- The pattern of infinity: all exponent bits and no others.  Larger patterns are not numbers. -/
def infinity (f : Format) : Nat := (2 ^ f.exponentBits - 1) * 2 ^ f.fractionBits

/-- The bit that makes a pattern that is not a number a quiet one. -/
def quietBit (f : Format) : Nat := 2 ^ (f.fractionBits - 1)

/-- The smallest positive number is `2 ^ (-scale)`. -/
def scale (f : Format) : Nat := 2 ^ (f.exponentBits - 1) - 2 + f.fractionBits

/-- The value of a finite pattern without sign, in multiples of the smallest positive number. -/
def units (f : Format) (pattern : Nat) : Nat :=
  let e := pattern / 2 ^ f.fractionBits - 1
  (pattern - e * 2 ^ f.fractionBits) * 2 ^ e

/-- The pattern without sign nearest to `n / d`, a tie to the even one.  Everything from half way
past the largest finite number on is infinity. -/
def round (f : Format) (n d : Nat) : Nat :=
  let n := n * 2 ^ f.scale
  let e := (n / d).log2 - f.fractionBits
  min f.infinity (e * 2 ^ f.fractionBits + roundDiv n (d * 2 ^ e))

/-- Converts a pattern to another format.  What is not a number becomes `nan`. -/
def convert (source target : Format) (nan : Nat) (pattern : Nat) : Nat :=
  let sign := pattern / source.signBit * target.signBit
  let magnitude := pattern % source.signBit
  if source.infinity < magnitude then sign + nan
  else if magnitude = source.infinity then sign + target.infinity
  else sign + target.round (source.units magnitude) (2 ^ source.scale)

end Format

/-- A 32-bit floating-point number, by its bits. -/
structure Binary32 where
  bits : UInt32
  deriving DecidableEq, Repr

/-- A 64-bit floating-point number, by its bits. -/
structure Binary64 where
  bits : UInt64
  deriving DecidableEq, Repr

namespace Binary32

def isFinite (x : Binary32) : Bool :=
  x.bits.toNat % Format.single.signBit < Format.single.infinity

def toBinary64 (x : Binary32) : Binary64 :=
  let payload := x.bits.toNat % 2 ^ (22 : Nat) * 2 ^ (29 : Nat)
  ⟨.ofNat (Format.single.convert .double (Format.double.infinity + Format.double.quietBit + payload)
    x.bits.toNat)⟩

/-- The nearest 16-bit number.  What is not a number loses its payload. -/
def toHalf (x : Binary32) : UInt16 :=
  .ofNat (Format.single.convert .half (Format.half.infinity + Format.half.quietBit) x.bits.toNat)

end Binary32

namespace Binary64

def isFinite (x : Binary64) : Bool :=
  x.bits.toNat % Format.double.signBit < Format.double.infinity

def isNegative (x : Binary64) : Bool := Format.double.signBit ≤ x.bits.toNat

/-- The bits below the sign. -/
def magnitude (x : Binary64) : Nat := x.bits.toNat % Format.double.signBit

def ofMagnitude (negative : Bool) (magnitude : Nat) : Binary64 :=
  ⟨.ofNat ((if negative then Format.double.signBit else 0) + magnitude)⟩

/-- The nearest 32-bit number.  What is not a number keeps the leading bits of its payload. -/
def toBinary32 (x : Binary64) : Binary32 :=
  let payload := x.bits.toNat % 2 ^ (51 : Nat) / 2 ^ (29 : Nat)
  ⟨.ofNat (Format.double.convert .single (Format.single.infinity + Format.single.quietBit + payload)
    x.bits.toNat)⟩

end Binary64

end SpirvText
