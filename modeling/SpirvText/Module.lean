import SpirvText.Instruction
import SpirvText.StringWords

/-!
# Modules

A module is a list of global instructions and a list of functions, whose bodies are lists of
labelled blocks.  The label instruction of a block and the instruction that ends a function are not
stored: they follow from the structure.
-/

namespace SpirvText

structure Block where
  label : Reg
  instrs : List Instruction := []
  deriving DecidableEq, Repr

namespace Block

/-- The instruction that ends the block, if its last one can. -/
def terminator? (b : Block) : Option Instruction :=
  b.instrs.getLast?.filter Instruction.isTerminator

def isSealed (b : Block) : Bool := b.terminator?.isSome

/-- The labels that control may pass to at the end of the block. -/
def successors (b : Block) : List Reg :=
  match b.terminator? with
  | some i => i.successors
  | none => []

end Block

/-- A function.  Its entry is its first block; without blocks it is a declaration. -/
structure Function where
  header : Instruction
  params : List Instruction := []
  /-- The name that the module gives to the function. -/
  name : Option String := none
  blocks : List Block := []
  deriving DecidableEq, Repr

namespace Function

def result? (f : Function) : Option Reg := f.header.reg? 1

def isDeclaration (f : Function) : Bool := f.blocks.isEmpty

def entry? (f : Function) : Option Block := f.blocks.head?

def block? (f : Function) (label : Reg) : Option Block := f.blocks.find? (·.label == label)

def labels (f : Function) : List Reg := f.blocks.map Block.label

/-- What messages and comments call the function. -/
def displayName (f : Function) : String :=
  match f.name, f.result? with
  | some name, _ => name
  | none, some r => r.text
  | none, none => "<anonymous>"

/-! ## Building -/

def start (returnType result type : Reg) (name : Option String) : Function where
  header := ⟨.opFunction, [.reg returnType, .reg result, .imm 0, .reg type], .integer⟩
  name := name

def addParam (f : Function) (type result : Reg) : Function :=
  { f with params := f.params ++ [⟨.opFunctionParameter, [.reg type, .reg result], .integer⟩] }

def addBlock (f : Function) (label : Reg) : Function :=
  { f with blocks := f.blocks ++ [{ label }] }

def addInstr? (f : Function) (i : Instruction) : Option Function :=
  match f.blocks.getLast? with
  | none => none
  | some last =>
    some { f with blocks := f.blocks.dropLast ++ [{ last with instrs := last.instrs ++ [i] }] }

end Function

structure Module where
  name : String
  globals : List Instruction := []
  functions : List Function := []
  deriving DecidableEq, Repr

namespace Module

def functionNamed? (m : Module) (name : String) : Option Function :=
  m.functions.find? (·.name == some name)

/-- The name that a global instruction gives to a register. -/
def naming? (i : Instruction) : Option (Reg × String) :=
  if i.opcode == .opName then (i.reg? 0).map fun r ↦ (r, StringWords.textAt i.operands 1) else none

def givenName? (m : Module) (r : Reg) : Option String :=
  (m.globals.reverse.filterMap naming?).lookup r

/-- Names the functions after the global instructions that name their registers. -/
def nameFunctions (m : Module) : Module :=
  { m with functions := m.functions.map fun f ↦
      match f.result?.bind m.givenName? with
      | some name => { f with name := some name }
      | none => f }

end Module

end SpirvText
