import SpirvText.Opcode
import SpirvText.Operand

/-!
# Instructions

An instruction is an opcode and its operands, which are kept as they stand in the binary form: a
string takes several words and a 64-bit constant takes two.
-/

namespace SpirvText

inductive LiteralForm where
  /-- As an integer. -/
  | integer
  /-- As a floating-point number, of 32 bits in one word or 64 bits in two. -/
  | float
  /-- As the bits of a 16-bit value, integer or floating-point. -/
  | bits16
  deriving DecidableEq, Repr

structure Instruction where
  opcode : Opcode
  operands : List Operand
  /-- How the literal of a constant is written. -/
  form : LiteralForm := .integer
  deriving DecidableEq, Repr

namespace Instruction

def isTerminator (i : Instruction) : Bool := i.opcode.isTerminator

def reg? (i : Instruction) (index : Nat) : Option Reg := i.operands[index]?.bind Operand.reg?

/-- The labels that control may pass to.  The literals of a switch are words, so every register
after its selector is a label. -/
def successors (i : Instruction) : List Reg :=
  match i.opcode with
  | .opBranch => (i.operands.take 1).filterMap Operand.reg?
  | .opBranchConditional => ((i.operands.drop 1).take 2).filterMap Operand.reg?
  | .opSwitch => (i.operands.drop 1).filterMap Operand.reg?
  | _ => []

end Instruction

end SpirvText
