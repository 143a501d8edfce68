import PositiveLogic.Command.Run

/-!
# The program

Reads files and the standard input for `Result.ofArguments`, and prints what it says.
-/

namespace PositiveLogic

/-- Why a file cannot be read, as the system puts it. -/
def ioReason : IO.Error → String
  | .noFileOrDirectory .. => "No such file or directory (os error 2)"
  | .permissionDenied .. => "Permission denied (os error 13)"
  | .inappropriateType .. => "Is a directory (os error 21)"
  | e => toString e

/-- The text of a file, or why it cannot be read. -/
def readTextFile (path : String) : IO (Except String String) := do
  try
    return .ok (← IO.FS.readFile path)
  catch e => return .error (ioReason e)

end PositiveLogic

open PositiveLogic in
/-- Run the program on its arguments. -/
def main (args : List String) : IO UInt32 := do
  let stdin ← IO.getStdin
  let readInput : Option (IO String) := if ← stdin.isTty then none else some stdin.readToEnd
  let result ← Result.ofArguments readTextFile readInput args
  IO.print result.stdout
  IO.eprint result.stderr
  return UInt32.ofNat result.exit
