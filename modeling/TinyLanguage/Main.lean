import TinyLanguage.Command.Basic

namespace TinyLanguage

def describeFailure : IO.Error → String
  | .noFileOrDirectory _ code details => s!"{details} (os error {code})"
  | .inappropriateType _ code details => s!"{details} (os error {code})"
  | .permissionDenied _ code details => s!"{details} (os error {code})"
  | e => toString e

def readInput (input : String) : IO (Except String ByteArray) := do
  try
    if input = "-" then
      return .ok (← (← IO.getStdin).readBinToEnd)
    else
      return .ok (← (← IO.FS.Handle.mk input .read).readBinToEnd)
  catch e => return .error (describeFailure e)

/-- Runs the command that `read` finds in the arguments, or tells what it has against them. -/
def perform (read : List String → Except String Command) (args : List String) : IO UInt32 := do
  match read args with
  | .error complaint =>
    IO.eprint complaint
    return 2
  | .ok command =>
    let contents ← match command.input? with
      | none => pure (.ok .empty)
      | some input => readInput input
    let outcome := command.run contents
    IO.print outcome.output
    IO.eprint outcome.complaint
    return outcome.exitCode.toUInt32

end TinyLanguage
