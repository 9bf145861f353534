import SpirvText.Pipeline

/-!
# The command

The command line names a source, what is to be written of it and where to, and how it is
normalized.  Options may come in any order, and an option that takes a value takes the next argument
whatever it looks like.
-/

namespace SpirvText

namespace Command

/-- What the command line asks to be normalized. -/
structure Request where
  /-- The source; `-` is the standard input. -/
  path : String
  kind : OutputKind
  /-- The file to write, instead of the standard output. -/
  output : Option String
  /-- The pass to write the module out after. -/
  dumpAfter : Option String
  options : Options
  deriving DecidableEq, Repr

inductive Invocation where
  | help | version
  | normalize (request : Request)
  deriving DecidableEq, Repr

inductive UsageError where
  | missingValue (option : String)
  | unknownKind (kind : String)
  | severalInputs (first second : String)
  | unknownArgument (argument : String)
  | noInput
  deriving DecidableEq, Repr

def UsageError.message : UsageError → String
  | missingValue option => option ++ " requires an argument"
  | unknownKind kind => "unknown emit kind: '" ++ kind ++ "' (valid: asm, blocks)"
  | severalInputs first second =>
    "more than one input file: '" ++ first ++ "' and '" ++ second ++ "'"
  | unknownArgument argument => "unknown argument: '" ++ argument ++ "'"
  | noInput => "no input file specified"

/-- What has been read of a command line. -/
structure Settings where
  path : Option String := none
  kind : OutputKind := .assembly
  output : Option String := none
  dumpAfter : Option String := none
  options : Options := {}
  deriving DecidableEq, Repr

/-- The request that settings make up, once they name a source. -/
def Settings.request (s : Settings) : Except UsageError Request :=
  match s.path with
  | some path => .ok ⟨path, s.kind, s.output, s.dumpAfter, s.options⟩
  | none => .error .noInput

def kindNamed? (name : String) : Option OutputKind :=
  if name == "asm" then some .assembly
  else if name == "blocks" then some .blocks
  else none

/-- Whether an argument is a path and not an option. -/
def isPath (argument : String) : Bool := argument == "-" || argument.toList.head? != some '-'

/-- Reads the rest of a command line. -/
def parseFrom (s : Settings) : List String → Except UsageError Invocation
  | [] => .normalize <$> s.request
  | argument :: rest =>
    if argument == "--help" || argument == "-h" then .ok .help
    else if argument == "--version" || argument == "-V" then .ok .version
    else if argument == "--emit" then
      match rest with
      | [] => .error (.missingValue argument)
      | name :: rest =>
        match kindNamed? name with
        | some kind => parseFrom { s with kind } rest
        | none => .error (.unknownKind name)
    else if argument == "-o" then
      match rest with
      | [] => .error (.missingValue argument)
      | file :: rest => parseFrom { s with output := some file } rest
    else if argument == "--dump-after" then
      match rest with
      | [] => .error (.missingValue argument)
      | pass :: rest => parseFrom { s with dumpAfter := some pass } rest
    else if argument == "--no-comments" then
      parseFrom { s with options := { s.options with comments := false } } rest
    else if argument == "--no-sort" then
      parseFrom { s with options := { s.options with sortBlocks := false } } rest
    else if argument == "--no-validate" then
      parseFrom { s with options := { s.options with validate := false } } rest
    else if isPath argument then
      match s.path with
      | some first => .error (.severalInputs first argument)
      | none => parseFrom { s with path := some argument } rest
    else .error (.unknownArgument argument)

def parse (arguments : List String) : Except UsageError Invocation := parseFrom {} arguments

/-! ## Texts -/

def helpText : String :=
  "spirv-emit: SPIR-V text normalizer\n"
    ++ "Usage: spirv-emit [options] <file.spvasm | ->\n"
    ++ "\n"
    ++ "Options:\n"
    ++ "--emit <kind>         Output kind: asm (default), blocks\n"
    ++ "-o <file>             Write output to <file> instead of stdout\n"
    ++ "--dump-after <p>      Dump the module to stderr after pass <p> (validate, block-order)\n"
    ++ "--no-comments         Omit header and function comments\n"
    ++ "--no-sort             Keep blocks in input order\n"
    ++ "--no-validate         Skip structural validation\n"
    ++ "--version, -V         Print the version and exit\n"
    ++ "--help, -h            Print this help and exit\n"
    ++ "\n"
    ++ "Set RUST_LOG=debug for diagnostics.\n"

def versionText : String := "spirv-emit 0.1.0\n"

/-! ## Running -/

structure Outcome where
  exit : UInt32 := 0
  stdout : String := ""
  stderr : String := ""
  deriving DecidableEq, Repr

/-- The name of a module: that of its file up to the last point, unless nothing is before that. -/
def stem (file : String) : String :=
  match file.toList.reverse.dropWhile (· != '.') with
  | _ :: c :: cs => String.ofList (c :: cs).reverse
  | _ => file

def Path.names (path : String) : List String :=
  ((path.toList.splitOn '/').map String.ofList).filter (· != "")

def fileName? (path : String) : Option String :=
  match ((Path.names path).filter (· != ".")).getLast? with
  | some name => if name == ".." then none else some name
  | none => none

def moduleName (path : String) : String := ((fileName? path).map stem).getD "module"

def UsageError.outcome (e : UsageError) : Outcome where
  exit := 1
  stderr := "error: " ++ e.message ++ "\n" ++ helpText ++ "\n"

namespace Request

def readsStdin (r : Request) : Bool := r.path == "-"

def name (r : Request) : String := if r.readsStdin then "stdin" else moduleName r.path

/-- Answers a request, given the contents of its source: what is put out, and the text that is
still to be written to a file. -/
def answer (r : Request) (contents : Except FileError ByteArray) :
    Outcome × Option (String × String) :=
  let run := normalizeContents contents r.name r.kind r.options r.dumpAfter
  let dumps := String.join (run.entries.filterMap Event.dump?)
  match run.result, r.output with
  | .error e, _ =>
    ({ exit := 1, stderr := dumps ++ "error[" ++ e.code ++ "]: " ++ e.message ++ "\n" }, none)
  | .ok text, none => ({ stdout := text, stderr := dumps }, none)
  | .ok text, some file => ({ stderr := dumps }, some (file, text))

end Request

/-- The outcome if a file could not be written after all. -/
def Outcome.notSaved (o : Outcome) (file : String) (e : FileError) : Outcome :=
  { o with
    exit := 1
    stderr := o.stderr ++ "error: cannot write '" ++ file ++ "': " ++ e.message ++ "\n" }

/-- What the command asks of the system that it runs on. -/
structure Host (m : Type → Type) where
  /-- Reads all of the standard input. -/
  readStdin : m (Except FileError ByteArray)
  /-- Reads all of the file at a path. -/
  readFile : String → m (Except FileError ByteArray)
  /-- Writes a text to the file at a path.  A device of the system may pass it on to what the run
  puts out. -/
  writeFile : Outcome → String → String → m (Except FileError Outcome)

variable {m : Type → Type} [Monad m]

def Host.source (host : Host m) (r : Request) : m (Except FileError ByteArray) :=
  if r.readsStdin then host.readStdin else host.readFile r.path

/-- Reads the source of a request, answers it and writes what is to be written. -/
def Request.run (host : Host m) (r : Request) : m Outcome := do
  let contents ← host.source r
  match r.answer contents with
  | (outcome, none) => return outcome
  | (outcome, some (file, text)) =>
    match ← host.writeFile outcome file text with
    | .ok outcome => return outcome
    | .error e => return outcome.notSaved file e

def run (host : Host m) (arguments : List String) : m Outcome :=
  match parse arguments with
  | .error e => return e.outcome
  | .ok .help => return { stdout := helpText }
  | .ok .version => return { stdout := versionText }
  | .ok (.normalize request) => request.run host

end Command

end SpirvText
