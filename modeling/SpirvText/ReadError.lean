import SpirvText.ExtSet
import SpirvText.OperandError
import SpirvText.Token

/-!
# Reading errors

Why a source cannot be read, and the line where that shows.
-/

namespace SpirvText

inductive Expectation where
  | mnemonic | register | integer
  | symbol (category : Category)
  | string | constant | plainOperand | interfaceRegister | lineEnd | functionEnd
  deriving DecidableEq, Repr

def Expectation.text : Expectation → String
  | mnemonic => "an opcode mnemonic"
  | register => "a register"
  | integer => "an integer literal"
  | symbol category => "a " ++ category.name ++ " operand"
  | string => "a string literal"
  | constant => "a constant value"
  | plainOperand => "a register, integer or symbol"
  | interfaceRegister => "an interface id"
  | lineEnd => "end of line"
  | functionEnd => "OpFunctionEnd"

inductive Vocabulary where
  | category (category : Category)
  | instructions (set : ExtSet)
  deriving DecidableEq, Repr

def Vocabulary.text : Vocabulary → String
  | category c => c.name
  | instructions set => set.label ++ " instruction"

inductive Misplacement where
  | functionOpen | outsideFunction | paramAfterBlock | labelWithoutRegister | beforeFirstLabel
  deriving DecidableEq, Repr

def Misplacement.text : Misplacement → String
  | functionOpen => "the previous function is still open"
  | outsideFunction => "outside of a function"
  | paramAfterBlock => "parameters must precede the first block"
  | labelWithoutRegister => "a label needs a result id"
  | beforeFirstLabel => "function body must start with OpLabel"

inductive ReadCause where
  | unexpectedChar (c : Char)
  | unterminatedString
  | invalidLiteral (text : String)
  | unknownMnemonic (text : String)
  | unexpectedToken (expected : Expectation) (found : Token)
  | unknownSymbol (found : Token) (vocabulary : Vocabulary)
  | misplaced (opcode : Opcode) (reason : Misplacement)
  | unknownConstantType (type : Reg)
  | operands (cause : OperandError)
  deriving DecidableEq, Repr

namespace ReadCause

def text : ReadCause → String
  | unexpectedChar c => "unexpected character '" ++ c.toString ++ "'"
  | unterminatedString => "unterminated string literal"
  | invalidLiteral literal => "invalid literal '" ++ literal ++ "'"
  | unknownMnemonic mnemonic => "unknown opcode '" ++ mnemonic ++ "'"
  | unexpectedToken expected found =>
    "expected " ++ expected.text ++ ", found '" ++ found.text ++ "'"
  | unknownSymbol found vocabulary =>
    "'" ++ found.text ++ "' is not a valid " ++ vocabulary.text ++ " operand"
  | misplaced opcode reason => opcode.mnemonic ++ " is not allowed here: " ++ reason.text
  | unknownConstantType type =>
    "OpConstant result type " ++ type.text ++ " is not a declared integer or float type"
  | operands cause => cause.message

def code : ReadCause → String
  | unexpectedChar _ => "E0001"
  | unterminatedString => "E0002"
  | invalidLiteral _ => "E0004"
  | unknownMnemonic _ => "E0005"
  | unexpectedToken .. => "E0006"
  | unknownSymbol .. => "E0007"
  | misplaced .. => "E0008"
  | unknownConstantType _ => "E0009"
  | operands cause => cause.code

end ReadCause

/-- Why a source cannot be read, and the line where that shows. -/
structure ReadError where
  line : Nat
  cause : ReadCause
  deriving DecidableEq, Repr

/-- The error on the given line, if it has no line yet: that is line zero. -/
def ReadError.orAt (e : ReadError) (line : Nat) : ReadError :=
  { e with line := if e.line = 0 then line else e.line }

def ReadError.message (e : ReadError) : String :=
  "line " ++ toString e.line ++ ": " ++ e.cause.text

end SpirvText
