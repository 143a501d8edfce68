import PositiveLogic.Clause.Factoring
import PositiveLogic.Dialect.Json
import PositiveLogic.Evaluation
import PositiveLogic.Reading

/-!
# Commands

A `Command` says what to do with a text: show its tokens, check it, list its clauses, factor it or
evaluate it with some literals that hold. `Request.execute` carries a command out;
`Dialect.resolve` finds the dialect that a request names.
-/

namespace PositiveLogic

/-- What to do with a text. -/
inductive Command
  /-- Show the tokens. -/
  | tokens
  /-- Say whether the text is a formula. -/
  | check
  /-- List the clauses, as data or written in the dialect. -/
  | dnf (written : Bool)
  /-- Take the shared literals out in front. -/
  | minimize
  /-- Evaluate, where the literals with these texts hold. -/
  | eval (truths : List String)
  deriving DecidableEq

/-- A command with all that it needs. -/
structure Request where
  expression : String
  dialect : Dialect := {}
  command : Command
  limits : Limits := {}
  /-- More texts of literals that hold, as a JSON array. -/
  input : Option String := none

/-- What a command answers. -/
inductive Output
  | json (v : Json)
  | text (s : String)

/-- Why a command has no answer. -/
inductive Failure
  /-- The text is refused. -/
  | refused (e : Error)
  /-- A JSON text is refused. -/
  | json
  /-- A file cannot be read. -/
  | io (reason : String)
  /-- There is nothing to evaluate with. -/
  | noInput
  /-- There is no such style. -/
  | unknownStyle (name : String)
  deriving DecidableEq

namespace Failure

/-- What is shown of a failure. -/
def message : Failure → String
  | refused e => e.message
  | json => "Invalid JSON"
  | io reason => s!"IO error: {reason}"
  | noInput => "No input provided. Use --true, --input or pipe a JSON array to stdin."
  | unknownStyle name =>
    s!"Unknown style: '{name}'\nRun 'boolex styles' to see available styles."

end Failure

namespace Dialect

/-- The dialect of a JSON text, else that of a style, else the default one; modifiers that are
given replace those of either. -/
def resolve (style json modifiers : Option String) : Except Failure Dialect := do
  let d ← match json, style with
    | some json, _ =>
      match ofJsonText? json with
      | some d => .ok d
      | none => .error Failure.json
    | none, some name =>
      match Style.ofName? name with
      | some style => .ok style.dialect
      | none => .error (.unknownStyle name)
    | none, none => .ok {}
  match modifiers with
  | some chars => return { d with modifiers := CharSet.ofList chars.toList }
  | none => return d

end Dialect

namespace Token

/-- A token as data, without the number of its literal. -/
def toJson : Token Atom → Json
  | literal a =>
    let modifiers := Json.texts (a.modifiers.map Char.toString)
    match a.call with
    | none => .record [
        ("kind", .text "Variable"), ("modifiers", modifiers), ("value", .text a.value)]
    | some call => .record [
        ("kind", .text "Function"), ("modifiers", modifiers), ("name", .text call.name),
        ("params", .texts call.params), ("value", .text a.value)]
  | and => .record [("kind", .text "And")]
  | or => .record [("kind", .text "Or")]
  | opening => .record [("kind", .text "OpenContainer")]
  | closing => .record [("kind", .text "CloseContainer")]

end Token

namespace Clauses

/-- A list of clauses as data: the texts of their leaves. -/
def toJson (cs : Clauses Leaf) : Json :=
  .array (cs.map fun c => .texts (Clause.texts c))

end Clauses

namespace Command

/-- The texts of a JSON array of texts. -/
def truthsOfText? (s : String) : Option (List String) :=
  (Json.ofText? s).bind (Json.listOf? Json.text?)

/-- All texts of literals that hold: those of the command and those of the input. -/
def allTruths (truths : List String) (input : Option String) : Except Failure (List String) :=
  match input with
  | none => if truths.isEmpty then .error .noInput else .ok truths
  | some s =>
    match truthsOfText? s with
    | some more => .ok (truths ++ more)
    | none => .error .json

/-- The first clause all of whose texts hold. -/
def witness? (truths : List String) (cs : Clauses Leaf) : Option (Clause Leaf) :=
  Clauses.witness? (m := Id) (fun t => truths.contains t.display) cs

end Command

namespace Request

/-- The formula of the text of a request. -/
def formula (r : Request) : Except Failure (Formula Leaf) :=
  match Formula.readChecked r.dialect r.limits 1 r.expression with
  | .ok (e, _) => .ok e
  | .error e => .error (.refused e)

/-- What a conversion with limits gives, or its error as a failure. -/
def bounded {α : Type} (x : Except TooManyClauses α) : Except Failure α :=
  x.mapError fun e => .refused (.clause e)

/-- Carry out the command of a request. -/
def execute (r : Request) : Except Failure Output :=
  match r.command with
  | .tokens =>
    match Token.ofText r.dialect r.expression with
    | .ok ts => .ok (.json (.array (ts.map Token.toJson)))
    | .error e => .error (.refused (.scan e))
  | .check => do
    let _ ← r.formula
    return .text "Syntax is valid"
  | .dnf written => do
    let e ← r.formula
    let cs ← bounded (e.clausesBounded r.limits)
    return if written then .text (cs.write r.dialect) else .json cs.toJson
  | .minimize => do
    let e ← r.formula
    let factored ← bounded (e.minimizeBounded r.limits)
    return .text (factored.write r.dialect)
  | .eval truths => do
    let e ← r.formula
    let truths ← Command.allTruths truths r.input
    let cs ← bounded (e.clausesBounded r.limits)
    let witness := Command.witness? truths cs
    return .json (.record [
      ("satisfied", .bool witness.isSome),
      ("witness", (witness.map fun c => .texts (Clause.texts c)).getD .null)])

end Request

end PositiveLogic
