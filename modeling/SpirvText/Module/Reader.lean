import SpirvText.Instruction.Reader
import SpirvText.Module
import SpirvText.Token.Lexer

/-!
# Reading a module

The instructions of a source are read line by line and put in their places: what stands between the
header of a function and its end is that function's, and all else is global.
-/

namespace SpirvText

structure Assembly where
  globals : List Instruction := []
  functions : List Function := []
  /-- The function that has been begun and not ended. -/
  openFunction : Option Function := none
  deriving DecidableEq, Repr

namespace Assembly

def add (a : Assembly) (i : Instruction) : Except Misplacement Assembly :=
  match i.opcode, a.openFunction with
  | .opFunction, none => .ok { a with openFunction := some { header := i } }
  | .opFunction, some _ => .error .functionOpen
  | .opFunctionEnd, some f =>
    .ok { a with functions := a.functions ++ [f], openFunction := none }
  | .opFunctionParameter, some f =>
    if f.blocks.isEmpty then
      .ok { a with openFunction := some { f with params := f.params ++ [i] } }
    else .error .paramAfterBlock
  | .opLabel, some f =>
    match i.reg? 0 with
    | some label => .ok { a with openFunction := some (f.addBlock label) }
    | none => .error .labelWithoutRegister
  | .opFunctionEnd, none | .opFunctionParameter, none | .opLabel, none => .error .outsideFunction
  | _, some f =>
    match f.addInstr? i with
    | some f => .ok { a with openFunction := some f }
    | none => .error .beforeFirstLabel
  | _, none => .ok { a with globals := a.globals ++ [i] }

end Assembly

namespace Module

/-- Reads the instructions that tokens begin with, one a line, and adds them.  Returns the tokens
from the end of the source on. -/
def readTokens (context : ReadContext) (assembly : Assembly) (ts : List Located) :
    Transcript Event ReadError (Assembly × List Located) :=
  match _h : ts.dropWhile (·.token == .newline) with
  | [] => pure (assembly, [])
  | first :: more =>
    if first.token == .eof then pure (assembly, first :: more)
    else do
      let rest := more.takeWhile (!·.token.isLineEnd)
      let after := more.dropWhile (!·.token.isLineEnd)
      let (i, context) ← Instruction.read context first rest (after.head?.getD ⟨.eof, 0⟩)
      match assembly.add i with
      | .error reason => Transcript.fail ⟨first.line, .misplaced i.opcode reason⟩
      | .ok assembly => readTokens context assembly after
termination_by ts.length
decreasing_by
  have hnewlines := (List.dropWhile_sublist (l := ts) (·.token == .newline)).length_le
  have hline := (List.dropWhile_sublist (l := more) (!·.token.isLineEnd)).length_le
  rw [_h, List.length_cons] at hnewlines
  omega

/-- The line of the next token, or of the last one if there is none. -/
def currentLine (ts left : List Located) : Nat :=
  ((left.head?.or ts.getLast?).map Located.line).getD 1

def read (source name : String) : Transcript Event ReadError Module := do
  let ts ← tokenize source
  let (assembly, left) ← readTokens {} {} ts
  if assembly.openFunction.isSome then
    Transcript.fail ⟨currentLine ts left, .unexpectedToken .functionEnd .eof⟩
  else
    let m := Module.nameFunctions ⟨name, assembly.globals, assembly.functions⟩
    Transcript.put (.moduleRead m.name m.globals.length m.functions.length)
    return m

end Module

end SpirvText
