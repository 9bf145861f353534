import SpirvText.Command

/-!
# The command in a folder

A folder that holds files and no other folders, as a system that the command runs on: what a run
puts out, and what the folder holds afterwards.

A path is followed name by name, and the first name that cannot be followed decides the error.  Of
what is around the folder only the root of the file system is known, with the folders that always
stand there and the devices of the system.
-/

namespace SpirvText.Command

/-! ## Places -/

inductive Device where
  /-- Holds nothing and takes anything. -/
  | null
  /-- Takes nothing. -/
  | full
  /-- The standard streams of the command. -/
  | stdin | stdout | stderr
  deriving DecidableEq, Repr

def Device.ofName? (name : String) : Option Device :=
  [("null", null), ("full", full), ("stdin", stdin), ("stdout", stdout), ("stderr", stderr)].lookup
    name

inductive Place where
  /-- The folder that the command runs in. -/
  | here
  /-- A folder around that one. -/
  | above
  /-- The root of the file system. -/
  | root
  /-- A folder at the root. -/
  | standard
  /-- The folder of devices, at the root. -/
  | devices
  | device (device : Device)
  /-- A file of the folder that the command runs in. -/
  | file (name : String)
  /-- Nothing, where a file of the folder could be. -/
  | vacant (name : String)
  deriving DecidableEq, Repr

namespace Place

def parent : Place → Place
  | root | standard | devices => root
  | _ => above

def standardFolders : List String :=
  ["bin", "boot", "etc", "home", "lib", "media", "mnt", "opt", "proc", "run", "sbin", "srv", "sys",
   "tmp", "usr", "var"]

/-- What is called `name` at the root. -/
def atRoot? (name : String) : Option Place :=
  if name == "dev" then some devices
  else if standardFolders.contains name then some standard
  else none

end Place

/-! ## Paths -/

namespace Path

def start (path : String) : Place := if path.toList.head? == some '/' then .root else .here

/-- Whether a path asks for a folder, by a slash at its end. -/
def asksForFolder (path : String) : Bool := path.toList.getLast? == some '/'

/-- Whether a name stands for a folder in every folder. -/
def isDots (name : String) : Bool := name == "." || name == ".."

def maxName : Nat := 255

def maxPath : Nat := 4095

def check (path : String) : Except FileError Unit :=
  if path.toList.contains '\x00' then .error .zeroInName
  else if path == "" then .error .notFound
  else if maxPath < path.utf8ByteSize then .error .nameTooLong
  else .ok ()

end Path

/-! ## Folders -/

structure Folder where
  files : List (String × ByteArray)

namespace Folder

def file? (folder : Folder) (name : String) : Option ByteArray := folder.files.lookup name

def entry (folder : Folder) (place : Place) (name : String) : Except FileError Place :=
  match place with
  | .here => .ok (if (folder.file? name).isSome then .file name else .vacant name)
  | .root => (Place.atRoot? name).elim (.error .notFound) .ok
  | .devices => (Device.ofName? name).elim (.error .notFound) fun device ↦ .ok (.device device)
  | _ => .error .notFound

/-- Follows one name on a path. -/
def enter (folder : Folder) (place : Place) (name : String) : Except FileError Place :=
  match place with
  | .vacant _ => .error .notFound
  | .file _ | .device _ => .error .notDirectory
  | _ =>
    if name == "." then .ok place
    else if name == ".." then .ok place.parent
    else if Path.maxName < name.utf8ByteSize then .error .nameTooLong
    else folder.entry place name

/-- The place that a path leads to.  A slash at its end is followed like the name of the folder
itself. -/
def locate (folder : Folder) (path : String) : Except FileError Place := do
  Path.check path
  let last := if Path.asksForFolder path then ["."] else []
  (Path.names path ++ last).foldlM folder.enter (Path.start path)

/-- The place that a path leads to when a file is to be made there.  Then a slash at its end is
refused as soon as all but the last name have been followed. -/
def locateNew (folder : Folder) (path : String) : Except FileError Place := do
  Path.check path
  let around ← (Path.names path).dropLast.foldlM folder.enter (Path.start path)
  match (Path.names path).getLast? with
  | none => .ok around
  | some name =>
    let around ← folder.enter around "."
    if Path.asksForFolder path && !Path.isDots name then .error .isDirectory
    else folder.enter around name

/-- Reads the file at a path.  A device that never comes to an end is not found. -/
def read (folder : Folder) (stdin : ByteArray) (path : String) : Except FileError ByteArray := do
  match ← folder.locate path with
  | .file name => (folder.file? name).elim (.error .notFound) .ok
  | .device .null => .ok .empty
  | .device .stdin => .ok stdin
  | .device _ | .vacant _ => .error .notFound
  | .here | .above | .root | .standard | .devices => .error .isDirectory

/-- Writes a text to the file at a path: what a run puts out with that, and the folder after
it. -/
def write (folder : Folder) (o : Outcome) (path text : String) :
    Except FileError (Outcome × Folder) := do
  match ← folder.locateNew path with
  | .file name | .vacant name => .ok (o, ⟨(name, text.toUTF8) :: folder.files⟩)
  | .device .null | .device .stdin => .ok (o, folder)
  | .device .stdout => .ok ({ o with stdout := o.stdout ++ text }, folder)
  | .device .stderr => .ok ({ o with stderr := o.stderr ++ text }, folder)
  | .device .full => if text == "" then .ok (o, folder) else .error .noSpace
  | .here | .above | .root | .standard | .devices => .error .isDirectory

/-! ## Running -/

def normalize (folder : Folder) (path : String) (kind : OutputKind) (options : Options) :
    Transcript Event Error String :=
  normalizeContents (folder.read .empty path) (moduleName path) kind options none

/-- The folder as the system that the command runs on. -/
def host (stdin : ByteArray) : Host (StateM Folder) where
  readStdin := return .ok stdin
  readFile path := return (← get).read stdin path
  writeFile outcome path text folder :=
    match folder.write outcome path text with
    | .ok (outcome, after) => (.ok outcome, after)
    | .error e => (.error e, folder)

def run (folder : Folder) (stdin : ByteArray) (arguments : List String) : Outcome × Folder :=
  Command.run (host stdin) arguments folder

end Folder

end SpirvText.Command
