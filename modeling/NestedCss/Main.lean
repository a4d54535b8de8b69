import NestedCss.CommandLine.Run

/-!
# The program

The command on the system that the program really runs on.
-/

namespace NestedCss.CommandLine

/-- What the system said was wrong. -/
def systemError : IO.Error → SystemError
  | .noFileOrDirectory .. => .notFound
  | .permissionDenied _ code message | .inappropriateType _ code message
  | .invalidArgument _ code message | .resourceExhausted _ code message
  | .alreadyExists _ code message =>
    .ofCode code.toNat message.toList
  | .otherError code message | .resourceBusy code message | .resourceVanished code message
  | .unsupportedOperation code message | .hardwareFault code message
  | .unsatisfiedConstraints code message | .illegalOperation code message =>
    .ofCode code.toNat message.toList
  | e => .other 5 (toString e).toList

/-- An action that the system may refuse. -/
def attempt {α : Type} (action : IO α) : IO (Except SystemError α) := do
  try return .ok (← action) catch e => return .error (systemError e)

/-- All that is left in a stream. -/
partial def readAll (stream : IO.FS.Stream) (start : ByteArray) : IO ByteArray := do
  let more ← stream.read 65536
  if more.isEmpty then return start else readAll stream (start ++ more)

/-- The real system. -/
def realSystem : System IO IO.FS.Handle where
  create path := attempt (IO.FS.Handle.mk (String.ofList path) .write)
  write handle text := attempt do
    handle.putStr (String.ofList text)
    handle.flush
  read path := attempt do
    return (← (← IO.FS.Handle.mk (String.ofList path) .read).readBinToEnd).toList
  readInput := do return (← readAll (← IO.getStdin) .empty).toList

end NestedCss.CommandLine

open NestedCss.CommandLine in
/-- Runs the command with the arguments that the system gives. -/
def main (arguments : List String) : IO UInt32 := do
  let outcome ← run realSystem (arguments.map String.toList)
  (← IO.getStdout).putStr (String.ofList outcome.stdout)
  (← IO.getStderr).putStr (String.ofList outcome.stderr)
  return outcome.code.toUInt32
