import SpirvText.Numeral
import SpirvText.Text.Escaped

/-!
# Registers and operands

An instruction takes registers, 32-bit words and symbolic expressions.  Registers are numbered from
zero and written from `%1` on.
-/

namespace SpirvText

/-- A register, by its number from zero on. -/
structure Reg where
  index : UInt32
  deriving DecidableEq, Repr

namespace Reg

/-- The register written `%n`.  There is none for zero. -/
def ofNumber? (n : UInt32) : Option Reg := if n = 0 then none else some ⟨n - 1⟩

/-- The number a register is written by, which for the last one no word holds. -/
def number (r : Reg) : Nat := r.index.toNat + 1

def text (r : Reg) : String := "%" ++ toString r.number

def described (r : Reg) : String := "RegId(" ++ toString r.index.toNat ++ ")"

end Reg

inductive Operand where
  | reg (r : Reg)
  /-- A literal word: a number, an enumerated value, a mask, or a part of a string or constant. -/
  | imm (word : UInt32)
  /-- A symbol that is resolved later, written as it stands. -/
  | expr (symbol : String)
  deriving DecidableEq, Repr

namespace Operand

def isImm : Operand → Bool
  | imm _ => true
  | _ => false

def reg? : Operand → Option Reg
  | reg r => some r
  | _ => none

def imm? : Operand → Option UInt32
  | imm word => some word
  | _ => none

/-- An operand as it is written on its own; words are written signed. -/
def text : Operand → String
  | reg r => r.text
  | imm word => toString (signedWord word)
  | expr symbol => symbol

def described : Operand → String
  | reg r => "Reg(" ++ r.described ++ ")"
  | imm word => "Imm(" ++ toString word.toNat ++ ")"
  | expr symbol => "Expr(SymbolicExpr(" ++ Text.escaped symbol ++ "))"

end Operand

end SpirvText
