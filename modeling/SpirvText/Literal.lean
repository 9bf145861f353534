import SpirvText.Decimal
import SpirvText.Instruction
import SpirvText.OperandError

/-!
# Numeric literals

The literal of a constant is one word, or two for 64 bits, the low one first.  The type of the
constant decides which numbers it can hold and how they are stored; the form kept with the words
decides how they are written.
-/

namespace SpirvText

inductive LiteralWords where
  | one (word : UInt32)
  | two (low high : UInt32)
  deriving DecidableEq, Repr

namespace LiteralWords

/-- The words as a list, the low one first. -/
def toList : LiteralWords → List UInt32
  | one word => [word]
  | two low high => [low, high]

/-- The words in a list of one or two. -/
def ofList? : List UInt32 → Option LiteralWords
  | [word] => some (one word)
  | [low, high] => some (two low high)
  | _ => none

/-- The number that the words make up, without sign. -/
def toNat : LiteralWords → Nat
  | one word => word.toNat
  | two low high => low.toNat + high.toNat * 2 ^ (32 : Nat)

/-- The words that hold the low `width` bits of a value. -/
def ofBits (bits : UInt64) (width : UInt32) : Except OperandError LiteralWords :=
  if width == 1 then .ok (one (bits &&& 1).toUInt32)
  else if width == 8 then .ok (one (bits &&& 0xff).toUInt32)
  else if width == 16 then .ok (one (bits &&& 0xffff).toUInt32)
  else if width == 32 then .ok (one bits.toUInt32)
  else if width == 64 then .ok (two bits.toUInt32 (bits >>> 32).toUInt32)
  else .error (.unsupportedWidth width)

end LiteralWords

structure Literal where
  words : LiteralWords
  form : LiteralForm
  deriving DecidableEq, Repr

namespace Literal

/-- A finite number as its shortest decimal, any other as its bits. -/
def floatText (value : Binary64) (bits : Nat) : String :=
  if value.isFinite then value.text else Numeral.hex bits

/-- A literal as it is written.  A single word is signed unless it holds 16 bits, for the type
that would tell is not at hand. -/
def text : Literal → String
  | ⟨.one word, .float⟩ => floatText (Binary32.toBinary64 ⟨word⟩) word.toNat
  | ⟨.two low high, .float⟩ =>
    let bits := (LiteralWords.two low high).toNat
    floatText ⟨.ofNat bits⟩ bits
  | ⟨.one word, .bits16⟩ => toString word.toNat
  | ⟨.one word, .integer⟩ => toString (signedWord word)
  | ⟨.two low high, _⟩ => toString (LiteralWords.two low high).toNat

def integerForm (width : UInt32) : LiteralForm := if width == 16 then .bits16 else .integer

def ofInteger (bits : UInt64) (width : UInt32) : Except OperandError Literal := do
  return ⟨← LiteralWords.ofBits bits width, integerForm width⟩

/-- The form of the bits of a floating-point number of the given width.  Those of 16 bits are
written as integers. -/
def floatForm (width : UInt32) : LiteralForm := if width == 16 then .bits16 else .float

/-- A floating-point number of the given width.  To 16 bits it is rounded by way of 32. -/
def ofFloat (value : Binary64) (width : UInt32) : Except OperandError Literal :=
  if width == 16 then do
    return ⟨← LiteralWords.ofBits value.toBinary32.toHalf.toUInt64 16, floatForm 16⟩
  else if width == 32 then do
    return ⟨← LiteralWords.ofBits value.toBinary32.bits.toUInt64 32, floatForm 32⟩
  else if width == 64 then do
    return ⟨← LiteralWords.ofBits value.bits 64, floatForm 64⟩
  else .error (.unsupportedWidth width)

/-- Defines `result` as a constant of type `type`. -/
def define (literal : Literal) (type result : Reg) : Instruction where
  opcode := .opConstant
  operands := .reg type :: .reg result :: literal.words.toList.map .imm
  form := literal.form

end Literal

/-- The numeric types that constants may have. -/
inductive ScalarType where
  | integer (width : UInt32)
  | float (width : UInt32)
  deriving DecidableEq, Repr

namespace ScalarType

/-- The numeric type that an instruction declares, with its register. -/
def declared? (i : Instruction) : Option (Reg × ScalarType) := do
  let result ← i.reg? 0
  let width ← i.operands[1]?.bind Operand.imm?
  match i.opcode with
  | .opTypeInt => some (result, integer width)
  | .opTypeFloat => some (result, float width)
  | _ => none

/-- Whether an integer of the given width can be `v`, signed or not.  A width that no literal has is
refused later. -/
def integerFits (width : UInt32) (v : Int) : Bool :=
  if width == 64 then -2 ^ (63 : Nat) ≤ v && v < 2 ^ (64 : Nat)
  else if width < 64 then -2 ^ (max width.toNat 1 - 1) ≤ v && v < 2 ^ width.toNat
  else true

/-- Whether `v` is a pattern of the given width.  Only 64 bits can be stored. -/
def patternFits (width : UInt32) (v : Int) : Bool :=
  0 ≤ v && v < 2 ^ (64 : Nat) && (64 ≤ width || v < 2 ^ width.toNat)

end ScalarType

end SpirvText
