import SpirvText.BlockOrder
import SpirvText.Module.Reader
import SpirvText.Module.Writer
import SpirvText.Validation

/-!
# Normalizing

A source is read into a module, the module is checked and its blocks are put in order, and the
result is written out again.
-/

namespace SpirvText

inductive FileError where
  | notFound | isDirectory | notDirectory | nameTooLong | zeroInName | noSpace | notUtf8
  /-- Any other reason, in the words of the system. -/
  | other (reason : String)
  deriving DecidableEq, Repr

def FileError.message : FileError → String
  | notFound => "No such file or directory (os error 2)"
  | isDirectory => "Is a directory (os error 21)"
  | notDirectory => "Not a directory (os error 20)"
  | nameTooLong => "File name too long (os error 36)"
  | zeroInName => "file name contained an unexpected NUL byte"
  | noSpace => "No space left on device (os error 28)"
  | notUtf8 => "stream did not contain valid UTF-8"
  | other reason => reason

inductive Error where
  | read (e : ReadError)
  | check (v : Violation)
  | write (e : WriteError)
  | file (e : FileError)
  deriving DecidableEq, Repr

namespace Error

def message : Error → String
  | read e => "[syntax error] " ++ e.message
  | check v => "[pass error] " ++ v.message
  | write e => "[codegen error] " ++ e.message
  | file e => "I/O error: " ++ e.message

def code : Error → String
  | read e => e.cause.code
  | check v => v.code
  | write e => e.cause.code
  | file _ => "E0500"

end Error

inductive OutputKind where
  /-- All of it. -/
  | assembly
  /-- The order of the blocks. -/
  | blocks
  deriving DecidableEq, Repr

structure Options where
  /-- Write comments. -/
  comments : Bool := true
  /-- Put blocks in order. -/
  sortBlocks : Bool := true
  /-- Check the module first. -/
  validate : Bool := true
  deriving DecidableEq, Repr

/-! ## Passes -/

inductive Pass where
  | validate | blockOrder
  deriving DecidableEq, Repr

namespace Pass

def name : Pass → String
  | validate => "validate"
  | blockOrder => "block-order"

/-- Runs a pass and tells whether it changed the module. -/
def run (pass : Pass) (m : Module) : Transcript Event Violation (Module × Bool) :=
  match pass with
  | validate => do
    m.validate
    return (m, false)
  | blockOrder => do
    Transcript.putAll m.orderEvents
    return m.orderBlocks

end Pass

structure PassRun where
  /-- The module, as it was when the run ended. -/
  result : Module
  /-- Whether any pass changed it. -/
  changed : Bool
  /-- The pass that stopped the run. -/
  failure? : Option (Pass × Violation)
  /-- What was reported. -/
  events : List Event

def dumpEvents (pass : Pass) (m : Module) : List Event :=
  let written := m.write true
  written.entries ++
    match written.result with
    | .ok text => [.dumped pass.name text]
    | .error e => [.dumpFailed pass.name e.message]

/-- Runs passes one after the other up to the first that fails, and writes the module out after
those called `dumpAfter`. -/
def runPasses (dumpAfter : Option String) : List Pass → Module → PassRun
  | [], m => ⟨m, false, none, []⟩
  | pass :: passes, m =>
    let run := pass.run m
    match run.result with
    | .error violation => ⟨m, false, some (pass, violation), run.entries⟩
    | .ok (m, changed) =>
      let dumps := if dumpAfter == some pass.name then dumpEvents pass m else []
      let rest := runPasses dumpAfter passes m
      { rest with
        changed := changed || rest.changed
        events := run.entries ++ .passFinished pass.name changed :: dumps ++ rest.events }

def Options.passes (options : Options) : List Pass :=
  (if options.validate then [.validate] else [])
    ++ if options.sortBlocks then [.blockOrder] else []

/-! ## Sources -/

/-- Leaves the record of a computation and names its error anew. -/
def Transcript.mapError {ω ε ε' α : Type} (f : ε → ε') (x : Transcript ω ε α) :
    Transcript ω ε' α :=
  ⟨x.entries, x.result.mapError f⟩

def Module.output (m : Module) (kind : OutputKind) (options : Options) :
    Transcript Event Error String :=
  match kind with
  | .assembly => (m.write options.comments).mapError .write
  | .blocks => pure m.writeBlockOrder

/-- Reads a source, runs the passes and writes the result. -/
def normalize (source name : String) (kind : OutputKind) (options : Options)
    (dumpAfter : Option String) : Transcript Event Error String := do
  let m ← (Module.read source name).mapError .read
  let run := runPasses dumpAfter options.passes m
  Transcript.putAll run.events
  match run.failure? with
  | some (_, violation) => Transcript.fail (.check violation)
  | none => run.result.output kind options

/-- Normalizes the contents of a file, or tells why they could not be had. -/
def normalizeContents (contents : Except FileError ByteArray) (name : String) (kind : OutputKind)
    (options : Options) (dumpAfter : Option String) : Transcript Event Error String :=
  match contents with
  | .error e => Transcript.fail (.file e)
  | .ok bytes =>
    match String.fromUTF8? bytes with
    | none => Transcript.fail (.file .notUtf8)
    | some source => do
      Transcript.put (.sourceLoaded name bytes.size)
      normalize source name kind options dumpAfter

end SpirvText
