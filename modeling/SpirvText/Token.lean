import SpirvText.Decimal
import SpirvText.Operand

/-!
# Tokens

The words of the assembly language, each with the line it begins on.
-/

namespace SpirvText

inductive Token where
  /-- A register, by the number it is written with. -/
  | id (number : UInt32)
  | int (value : Int)
  | float (value : Binary64)
  /-- A string literal, by its text. -/
  | str (text : String)
  /-- A mnemonic, a name, a mask or a symbol. -/
  | ident (text : String)
  /-- The end of a line. -/
  | newline
  /-- The end of the source. -/
  | eof
  deriving DecidableEq, Repr

namespace Token

def text : Token → String
  | id number => "%" ++ toString number.toNat
  | int value => toString value
  | float value => value.text
  | str text => "\"" ++ text ++ "\""
  | ident text => text
  | newline => "end of line"
  | eof => "end of input"

def isId : Token → Bool
  | id _ => true
  | _ => false

def isLineEnd : Token → Bool
  | newline | eof => true
  | _ => false

/-- How many line breaks the token holds. -/
def lineBreaks : Token → Nat
  | str text => text.toList.count '\n'
  | newline => 1
  | _ => 0

end Token

/-- A token and the line it begins on, counted from one. -/
structure Located where
  token : Token
  line : Nat
  deriving DecidableEq, Repr

end SpirvText
