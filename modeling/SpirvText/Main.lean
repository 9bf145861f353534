import SpirvText.Command

/-!
# The program

The command on the system that it is started on.
-/

namespace SpirvText.Command

/-- The number and the words of the system for a failed access to a file. -/
def systemReason? : IO.Error → Option (UInt32 × String)
  | .alreadyExists _ code words | .interrupted _ code words | .noFileOrDirectory _ code words
  | .invalidArgument _ code words | .permissionDenied _ code words
  | .resourceExhausted _ code words | .inappropriateType _ code words | .noSuchThing _ code words
  | .otherError code words | .resourceBusy code words | .resourceVanished code words
  | .unsupportedOperation code words | .hardwareFault code words
  | .unsatisfiedConstraints code words | .illegalOperation code words | .protocolError code words
  | .timeExpired code words => some (code, words)
  | .unexpectedEof | .userError _ => none

def reasonOf (e : IO.Error) : FileError :=
  match systemReason? e with
  | some (code, words) => .other (words ++ " (os error " ++ toString code.toNat ++ ")")
  | none => .other (toString e)

partial def stdinBytes : IO ByteArray := do
  let stdin ← IO.getStdin
  let rec go (read : ByteArray) : IO ByteArray := do
    let chunk ← stdin.read 65536
    if chunk.isEmpty then return read else go (read ++ chunk)
  go .empty

def fileBytes (path : String) : IO ByteArray :=
  IO.FS.withFile path .read fun handle ↦ handle.readBinToEnd

def attempt {α : Type} (action : IO α) : IO (Except FileError α) := do
  try return .ok (← action)
  catch e => return .error (reasonOf e)

def Outcome.show (o : Outcome) : IO UInt32 := do
  IO.print o.stdout
  IO.eprint o.stderr
  return o.exit

def Host.system : Host IO where
  readStdin := attempt stdinBytes
  readFile path := attempt (fileBytes path)
  writeFile outcome file text := attempt do
    IO.FS.writeFile file text
    return outcome

end SpirvText.Command

open SpirvText.Command in
def main (arguments : List String) : IO UInt32 := do
  (← run .system arguments).show
