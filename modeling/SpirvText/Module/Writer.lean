import SpirvText.Instruction.Writer
import SpirvText.Module

/-!
# Writing a module

A module is written as its global instructions and then its functions, one instruction a line, with
comments in front of the module and around each function if they are wanted.
-/

namespace SpirvText

structure TextFormat where
  /-- What comments begin with. -/
  commentMark : String
  /-- The bytes that every instruction is aligned to in the binary form. -/
  instructionAlignment : Nat
  /-- Whether the low word of a literal comes first. -/
  littleEndian : Bool

def TextFormat.assembly : TextFormat := ⟨";", 4, true⟩

inductive Site where
  | global (index : Nat) (opcode : Opcode)
  | header (function : String)
  | param (function : String) (index : Nat)
  | label (function : String) (block : Reg)
  | body (function : String) (block : Reg) (index : Nat) (opcode : Opcode)
  | functionEnd (function : String)
  deriving DecidableEq, Repr

def Site.text : Site → String
  | global index opcode => "global instruction " ++ toString index ++ " (" ++ opcode.mnemonic ++ ")"
  | header function => "function '" ++ function ++ "' header"
  | param function index => "function '" ++ function ++ "' parameter " ++ toString index
  | label function block => "function '" ++ function ++ "' block " ++ block.text
  | body function block index opcode =>
    "function '" ++ function ++ "', block " ++ block.text ++ ", instruction " ++ toString index
      ++ " (" ++ opcode.mnemonic ++ ")"
  | functionEnd function => "function '" ++ function ++ "' end"

/-- An instruction that could not be written, and where it stands. -/
structure WriteError where
  site : Site
  cause : OperandError
  deriving DecidableEq, Repr

def WriteError.message (e : WriteError) : String := e.site.text ++ ": " ++ e.cause.message

inductive Item where
  | comment (text : String)
  | instruction (site : Site) (instr : Instruction)
  deriving DecidableEq, Repr

def Block.labelInstr (b : Block) : Instruction := ⟨.opLabel, [.reg b.label], .integer⟩

def Block.items (b : Block) (function : String) : List Item :=
  .instruction (.label function b.label) b.labelInstr ::
    b.instrs.zipIdx.map fun (i, index) ↦ .instruction (.body function b.label index i.opcode) i

def Function.endInstr : Instruction := ⟨.opFunctionEnd, [], .integer⟩

def Function.items (f : Function) (comments : Bool) : List Item :=
  let name := f.displayName
  (if comments then [.comment ("-- Begin function " ++ name)] else [])
    ++ .instruction (.header name) f.header
    :: (f.params.zipIdx.map fun (i, index) ↦ .instruction (.param name index) i)
    ++ f.blocks.flatMap (·.items name)
    ++ .instruction (.functionEnd name) Function.endInstr
    :: (if comments then [.comment "-- End function"] else [])

namespace Module

def items (m : Module) (comments : Bool) : List Item :=
  (if comments then [.comment "SPIR-V", .comment ("Module: " ++ m.name)] else [])
    ++ (m.globals.zipIdx.map fun (i, index) ↦ .instruction (.global index i.opcode) i)
    ++ m.functions.flatMap (·.items comments)

def writeItems (out : String) (registry : Registry) :
    List Item → Transcript Event WriteError (String × Registry)
  | [] => pure (out, registry)
  | .comment text :: items =>
    writeItems (out ++ TextFormat.assembly.commentMark ++ " " ++ text ++ "\n") registry items
  | .instruction site i :: items => do
    let emission := i.emit out registry
    Transcript.putAll emission.events
    match emission.error? with
    | some cause => Transcript.fail ⟨site, cause⟩
    | none => writeItems (emission.text ++ "\n") emission.registry items

def write (m : Module) (comments : Bool) : Transcript Event WriteError String := do
  let (text, registry) ← writeItems "" .empty (m.items comments)
  Transcript.put (.moduleWritten m.name m.globals.length m.functions.length registry.size)
  return text

/-- Writes the labels of each function's blocks on one line. -/
def writeBlockOrder (m : Module) : String :=
  String.join (m.functions.map fun f ↦
    f.displayName ++ ":" ++ String.join (f.labels.map (" " ++ ·.text)) ++ "\n")

end Module

end SpirvText
