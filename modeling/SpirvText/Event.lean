import SpirvText.Layout

/-!
# Events

What reading, checking, reordering and writing report while they run, for those who follow a run.
-/

namespace SpirvText

/-- How much an event matters. -/
inductive Level where
  | warn | debug | trace
  deriving DecidableEq, Repr

namespace Level

def name : Level → String
  | warn => "WARN"
  | debug => "DEBUG"
  | trace => "TRACE"

/-- The rank of the level; the less it matters the higher. -/
def rank : Level → Nat
  | warn => 0
  | debug => 1
  | trace => 2

end Level

inductive Event where
  /-- The fixed operands of an instruction have been laid out, and `count` items are left. -/
  | fixedLaidOut (opcode : Opcode) (count : Nat)
  /-- A handle now stands for a set. -/
  | setBound (handle : Reg) (set : ExtSet) (name : String)
  /-- The handle had stood for a set before. -/
  | setRebound (handle : Reg) (before after : ExtSet)
  /-- The last operands of an instruction are not written. -/
  | operandsDropped (opcode : Opcode) (count : Nat)
  /-- A module has been read. -/
  | moduleRead (name : String) (globals functions : Nat)
  /-- A module has been written. -/
  | moduleWritten (name : String) (globals functions sets : Nat)
  /-- An instruction had no block to go to. -/
  | instructionDropped (opcode : Opcode)
  /-- The dominators of a function have been worked out. -/
  | dominatorsFound (function : String) (reachable blocks : Nat)
  /-- The blocks of a function have changed their order. -/
  | blocksReordered (function : String) (labels : List Reg)
  /-- A pass is done. -/
  | passFinished (pass : String) (changed : Bool)
  /-- The module could not be written out after a pass. -/
  | dumpFailed (pass : String) (reason : String)
  /-- The module was written out after a pass. -/
  | dumped (pass : String) (text : String)
  /-- A source has been loaded. -/
  | sourceLoaded (name : String) (bytes : Nat)
  deriving DecidableEq, Repr

namespace Event

/-- How much the event matters.  A dump is asked for, and is shown at any level. -/
def level? : Event → Option Level
  | fixedLaidOut .. | setBound .. | dominatorsFound .. => some .trace
  | setRebound .. | operandsDropped .. | moduleRead .. | moduleWritten .. | blocksReordered ..
  | passFinished .. | sourceLoaded .. => some .debug
  | instructionDropped .. | dumpFailed .. => some .warn
  | dumped .. => none

def message : Event → String
  | fixedLaidOut opcode count =>
    opcode.mnemonic ++ ": tail " ++ opcode.shape.tail.name ++ ", " ++ toString count
      ++ " operand(s) left"
  | setBound handle set name =>
    "bind extended set " ++ handle.text ++ " -> " ++ set.label ++ " (" ++ Text.escaped name ++ ")"
  | setRebound handle before after =>
    "extended set handle " ++ handle.text ++ " rebound (" ++ before.label ++ " -> " ++ after.label
      ++ ")"
  | operandsDropped opcode count =>
    opcode.mnemonic ++ ": " ++ toString count
      ++ " trailing operand(s) have no printed form for this shape"
  | moduleRead name globals functions =>
    "parsed module '" ++ name ++ "': " ++ toString globals ++ " global(s), " ++ toString functions
      ++ " function(s)"
  | moduleWritten name globals functions sets =>
    "emitted module '" ++ name ++ "': " ++ toString globals ++ " global(s), " ++ toString functions
      ++ " function(s), " ++ toString sets ++ " extended set(s)"
  | instructionDropped opcode =>
    "FunctionBuilder: " ++ opcode.mnemonic ++ " pushed before any block was created"
  | dominatorsFound function reachable blocks =>
    "dominator tree for " ++ function ++ ": " ++ toString reachable ++ " reachable of "
      ++ toString blocks ++ " block(s)"
  | blocksReordered function labels =>
    "block-order: reordered " ++ function ++ " -> [" ++ ", ".intercalate (labels.map Reg.described)
      ++ "]"
  | passFinished pass changed =>
    "pass '" ++ pass ++ "' finished (changed: " ++ (if changed then "true" else "false") ++ ")"
  | dumpFailed pass reason => "cannot dump module after " ++ pass ++ ": " ++ reason
  | dumped pass text => "--- module after " ++ pass ++ " ---\n" ++ text ++ "\n"
  | sourceLoaded name bytes => "normalizing '" ++ name ++ "' (" ++ toString bytes ++ " bytes)"

/-- The line that the event leaves in a log of the given level. -/
def logLine? (limit : Level) (event : Event) : Option String :=
  match event.level? with
  | some level =>
    if level.rank ≤ limit.rank then some (level.name ++ " " ++ event.message) else none
  | none => none

/-- The text that the event shows whatever the level of the log. -/
def dump? : Event → Option String
  | event@(dumped ..) => some event.message
  | _ => none

end Event

def Registry.bindEvents (registry : Registry) (handle : Reg) (name : String) : List Event :=
  .setBound handle (.ofName name) name ::
    match registry.find? handle with
    | some before => [.setRebound handle before (.ofName name)]
    | none => []

/-- What laying out an instruction reports: how many of its `count` items the fixed operands left,
and the set that it imports. -/
def layoutEvents (registry : Registry) (opcode : Opcode) (count : Nat) (fields : List Field) :
    List Event :=
  let fixed := opcode.shape.fixed.length
  (if fixed ≤ fields.length then [.fixedLaidOut opcode (count - fixed)] else [])
    ++ match imported? opcode fields with
      | some (handle, name) => registry.bindEvents handle name
      | none => []

end SpirvText
