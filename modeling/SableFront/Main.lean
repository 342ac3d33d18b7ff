import SableFront.CommandLine.Run

/-!
# The program

Reads the file that the command line names and prints what comes of it.
-/

namespace SableFront.CommandLine

/-- The system's report of a failure. -/
def systemError : IO.Error → SystemError
  | .noFileOrDirectory _ code details | .inappropriateType _ code details
  | .permissionDenied _ code details | .resourceExhausted _ code details
  | .invalidArgument _ code details => ⟨details, code.toNat⟩
  | e => ⟨toString e, 0⟩

/-- Find out what is under the name of a file. -/
def stateOf (name : String) : IO FileState := do
  match ← (IO.FS.Handle.mk name .read).toBaseIO with
  | .error e =>
    return match e with
      | .permissionDenied .. => .unreadable (systemError e)
      | _ => .inaccessible (systemError e)
  | .ok handle =>
    match ← handle.readBinToEnd.toBaseIO with
    | .error e => return .unreadable (systemError e)
    | .ok bytes => return .content bytes

end SableFront.CommandLine

open SableFront.CommandLine

def main (args : List String) : IO UInt32 := do
  let outcome ← match read args with
    | .ok command => do pure (command.run (← stateOf command.file))
    | .error stop => pure stop.outcome
  (← IO.getStdout).putStr outcome.output
  if let some complaint := outcome.complaint then
    (← IO.getStderr).putStr complaint.text
  return outcome.exit.toUInt32
