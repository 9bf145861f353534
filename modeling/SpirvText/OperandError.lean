import SpirvText.Operand
import SpirvText.Shape

/-!
# Operand errors

What can be wrong with the operands of an instruction, whether they are being read or written.
-/

namespace SpirvText

inductive Wanted where
  | register | literal
  | symbol (category : Category)
  | extNumber
  deriving DecidableEq, Repr

def Wanted.text : Wanted → String
  | register => "a register"
  | literal => "a literal"
  | symbol category => "a " ++ category.name ++ " operand"
  | extNumber => "an extended instruction number"

/-- A way in which operands do not fit the shape of their opcode. -/
inductive Defect where
  | missingFixed (index : Nat) (kind : OperandKind)
  | noSetOperand
  | noExtNumber
  | noResultType
  | noDecoration
  | missingString
  | missingLinkageType
  | missingRoundingMode (instruction : String)
  | noMemoryMask
  | missingAlignment
  | noImageMask
  | unexpected (wanted : Wanted) (position : Nat) (found : Operand)
  | noString (position : Nat)
  | literalNotWords
  | literalLength (words : Nat)
  deriving DecidableEq, Repr

def Defect.message : Defect → String
  | missingFixed index kind =>
    "missing fixed operand " ++ toString index ++ " (" ++ kind.name ++ ")"
  | noSetOperand => "extended instruction without a set operand"
  | noExtNumber => "missing extended instruction number"
  | noResultType => "constant without a result type"
  | noDecoration => "missing decoration kind"
  | missingString => "missing string literal"
  | missingLinkageType => "LinkageAttributes decoration is missing its linkage type"
  | missingRoundingMode instruction => instruction ++ " requires a trailing rounding mode"
  | noMemoryMask => "expected a memory operand mask"
  | missingAlignment => "Aligned memory operand is missing its alignment literal"
  | noImageMask => "expected an image operand mask"
  | unexpected wanted position found =>
    "expected " ++ wanted.text ++ " at operand " ++ toString position ++ ", found Some("
      ++ found.described ++ ")"
  | noString position => "expected a string literal at operand " ++ toString position
  | literalNotWords => "constant literal words must be immediates"
  | literalLength words =>
    "constant literal has " ++ toString words ++ " words (expected 1 or 2)"

inductive OperandError where
  /-- The operands do not fit the shape of the opcode. -/
  | malformed (opcode : Opcode) (defect : Defect)
  /-- No literal has this many bits. -/
  | unsupportedWidth (width : UInt32)
  /-- An extended instruction names a set that has not been imported. -/
  | unboundSet (handle : Reg)
  deriving DecidableEq, Repr

namespace OperandError

def message : OperandError → String
  | malformed opcode defect => "malformed operands for " ++ opcode.mnemonic ++ ": " ++ defect.message
  | unsupportedWidth width =>
    "unsupported constant bit width " ++ toString width.toNat ++ " (supported: 1, 8, 16, 32, 64)"
  | unboundSet handle =>
    "internal error: extended instruction set handle " ++ handle.text
      ++ " was used before its OpExtInstImport"

def code : OperandError → String
  | malformed _ _ => "E0300"
  | unsupportedWidth _ => "E0301"
  | unboundSet _ => "E0302"

end OperandError

end SpirvText
