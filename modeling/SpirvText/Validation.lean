import SpirvText.Module

/-!
# Validation

A module is valid if every block ends with its only terminator, every branch goes to a block of the
same function, and every extended instruction comes after the import of its set.  `violations` lists
everything that is wrong with a module, in the order in which it is come upon.
-/

namespace SpirvText

inductive UseSite where
  | global (index : Nat)
  | body (function : String) (block : Reg)
  deriving DecidableEq, Repr

def UseSite.text : UseSite → String
  | global index => "global instruction " ++ toString index
  | body function block => "function '" ++ function ++ "', block " ++ block.text

inductive Violation where
  /-- The terminator of a block is missing, or not its last instruction. -/
  | missingTerminator (function : String) (block : Reg)
  /-- A branch goes to what is not a block of the function. -/
  | unknownTarget (function : String) (block target : Reg)
  /-- An extended instruction comes before the import of its set. -/
  | useBeforeImport (site : UseSite) (handle : Reg)
  deriving DecidableEq, Repr

namespace Violation

def message : Violation → String
  | missingTerminator function block =>
    "in function '" ++ function ++ "': block " ++ block.text
      ++ " does not end with a single terminator"
  | unknownTarget function block target =>
    "in function '" ++ function ++ "': block " ++ block.text ++ " branches to " ++ target.text
      ++ ", which is not a block of this function"
  | useBeforeImport site handle =>
    site.text ++ ": extended instruction set " ++ handle.text ++ " is used before it is imported"

def code : Violation → String
  | missingTerminator .. => "E0200"
  | unknownTarget .. => "E0201"
  | useBeforeImport .. => "E0202"

end Violation

namespace Instruction

def importedHandle? (i : Instruction) : Option Reg :=
  if i.opcode == .opExtInstImport then i.reg? 0 else none

/-- The handle of the set that an extended instruction comes from. -/
def usedHandle? (i : Instruction) : Option Reg :=
  if i.opcode == .opExtInst then i.reg? 2 else none

/-- What is wrong with the handle that an instruction uses, when `imports` come before it. -/
def useViolations (i : Instruction) (site : UseSite) (imports : List Reg) : List Violation :=
  match i.usedHandle? with
  | some handle => if imports.contains handle then [] else [.useBeforeImport site handle]
  | none => []

end Instruction

/-- The imports after some instructions, when `imports` come before them. -/
def importsAfter (imports : List Reg) (instrs : List Instruction) : List Reg :=
  imports ++ instrs.filterMap Instruction.importedHandle?

namespace Block

/-- What is wrong with the instructions of a block up to the last.  Only the last may be a
terminator. -/
def bodyViolations (b : Block) (function : String) (imports : List Reg) :
    List Instruction → List Violation
  | [] => []
  | i :: rest =>
    (if i.isTerminator && !rest.isEmpty then [.missingTerminator function b.label] else [])
      ++ i.useViolations (.body function b.label) imports
      ++ b.bodyViolations function (importsAfter imports [i]) rest

/-- What is wrong with a block of a function that has the given labels. -/
def violations (b : Block) (function : String) (labels imports : List Reg) : List Violation :=
  b.bodyViolations function imports b.instrs
    ++ (if b.isSealed then [] else [.missingTerminator function b.label])
    ++ (b.successors.filter (!labels.contains ·)).map (.unknownTarget function b.label)

end Block

/-- What is wrong with blocks that stand one after the other. -/
def blockViolations (function : String) (labels : List Reg) :
    List Reg → List Block → List Violation
  | _, [] => []
  | imports, b :: rest =>
    b.violations function labels imports
      ++ blockViolations function labels (importsAfter imports b.instrs) rest

/-- What is wrong with functions that stand one after the other. -/
def functionViolations : List Reg → List Function → List Violation
  | _, [] => []
  | imports, f :: rest =>
    blockViolations f.displayName f.labels imports f.blocks
      ++ functionViolations (importsAfter imports (f.blocks.flatMap Block.instrs)) rest

/-- What is wrong with global instructions, of which the first has the given index. -/
def globalViolations (imports : List Reg) (index : Nat) : List Instruction → List Violation
  | [] => []
  | i :: rest =>
    i.useViolations (.global index) imports
      ++ globalViolations (importsAfter imports [i]) (index + 1) rest

namespace Module

/-- Everything that is wrong with a module. -/
def violations (m : Module) : List Violation :=
  globalViolations [] 0 m.globals ++ functionViolations (importsAfter [] m.globals) m.functions

/-- Accepts a valid module and reports the first thing that is wrong with any other. -/
def validate (m : Module) : Except Violation Unit :=
  match m.violations with
  | [] => .ok ()
  | violation :: _ => .error violation

end Module

end SpirvText
