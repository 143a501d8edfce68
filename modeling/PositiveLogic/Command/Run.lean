import PositiveLogic.Command.Arguments
import PositiveLogic.Command.Overview

/-!
# Program calls

`Invocation.run` carries out a program call, given how files and the standard input are read, and
`Result.ofArguments` says what the program prints and how it ends: with 0 after an answer, with 1
after a failure and with 2 if the arguments are refused.
-/

namespace PositiveLogic

namespace Output

/-- An answer as it is printed. -/
def render (pretty : Bool) : Output → String
  | text s => s
  | json v => if pretty then v.pretty else v.compact

end Output

namespace Invocation

variable {m : Type → Type} [Monad m]

/-- The text of an action that looks into the standard input only where nothing else says what
holds. -/
def inputFor (readInput : m String) (command : Command) (input : Option String) :
    m (Option String) :=
  match command, input with
  | .eval [], none => some <$> readInput
  | _, input => return input

/-- What a program call prints. `readFile` reads a file or says why it cannot; `readInput`, if
there is something to read, reads the standard input. -/
def run (readFile : String → m (Except String String)) (readInput : Option (m String))
    (i : Invocation) : m (Except Failure String) := do
  let json : Except String (Option String) ← match i.grammar with
    | none => pure (.ok none)
    | some path => do
      let text ← readFile path
      pure (text.map some)
  match json with
  | .error reason => return .error (.io reason)
  | .ok json =>
    match Dialect.resolve i.style json i.modifiers, i.action with
    | .error failure, _ => return .error failure
    | .ok _, .styles => return .ok Style.overview
    | .ok dialect, .command command expression input =>
      let input ← match readInput with
        | some readInput => inputFor readInput command input
        | none => pure input
      let limits := if i.strict then Limits.strict else {}
      let output := Request.execute { expression, dialect, command, limits, input }
      return output.map fun o => o.render i.pretty ++ "\n"

end Invocation

/-- What a program call leaves behind. -/
structure Result where
  exit : Nat
  stdout : String := ""
  stderr : String := ""

namespace Result

/-- The usage line. -/
def usage : String :=
  "Usage: boolex [OPTIONS] <tokens|check|dnf|minimize|eval|styles>\n"

/-- What the program does with its arguments. -/
def ofArguments {m : Type → Type} [Monad m] (readFile : String → m (Except String String))
    (readInput : Option (m String)) (args : List String) : m Result :=
  match Invocation.ofArguments args with
  | .error .usage => return { exit := 2, stderr := usage }
  | .error .version => return { exit := 0, stdout := "boolex 0.1.0\n" }
  | .error .help => return { exit := 0, stdout := usage }
  | .ok i => do
    match ← i.run readFile readInput with
    | .ok text => return { exit := 0, stdout := text }
    | .error failure => return { exit := 1, stderr := failure.message ++ "\n" }

end Result

end PositiveLogic
