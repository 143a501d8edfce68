import PositiveLogic.Command.Basic

/-!
# Command line arguments

The arguments name one of six tasks and carry options. Options that every task takes may stand in
front of the name of the task or behind it; the value behind it counts. An option is written
`--name value`, `--name=value`, `-n value`, `-nvalue` or `-n=value`, and several short options
without values can share one dash. Behind `--` nothing is an option. An option that takes one value
may be given once in front of the name of the task and once behind it.

`Invocation.ofArguments` reads the arguments.
-/

namespace PositiveLogic

/-- The name of a task. -/
inductive Task
  | tokens
  | check
  | dnf
  | minimize
  | eval
  | styles
  deriving DecidableEq

namespace Task

/-- The task of a name. -/
def ofName? : String → Option Task
  | "tokens" => some tokens
  | "check" => some check
  | "dnf" => some dnf
  | "minimize" => some minimize
  | "eval" => some eval
  | "styles" => some styles
  | _ => none

end Task

/-- What a program call asks for. -/
inductive Invocation.Action
  /-- Show the overview of the styles. -/
  | styles
  /-- Carry out a command on a text; `input` is the JSON text of an option. -/
  | command (command : Command) (expression : String) (input : Option String)

/-- A program call. -/
structure Invocation where
  style : Option String
  /-- The path of a file with a dialect in JSON. -/
  grammar : Option String
  modifiers : Option String
  strict : Bool
  pretty : Bool
  action : Invocation.Action

namespace Invocation

/-- An option. -/
inductive Opt
  | style
  | grammar
  | modifiers
  | strict
  | pretty
  | verbose
  | version
  | help
  | written
  | truth
  | input
  deriving DecidableEq

/-- How often an option may be given, and whether it takes a value. -/
inductive Arity
  /-- Once, without a value. -/
  | switch
  /-- Any number of times, without a value. -/
  | count
  /-- Once, with a value. -/
  | single
  /-- Any number of times, with a value. -/
  | append
  deriving DecidableEq

namespace Opt

/-- How often an option may be given, and whether it takes a value. -/
def arity : Opt → Arity
  | style | grammar | modifiers | input => .single
  | truth => .append
  | verbose => .count
  | strict | pretty | version | help | written => .switch

/-- Whether an option takes a value. -/
def takesValue (o : Opt) : Bool :=
  o.arity == .single || o.arity == .append

/-- The option of a long name, in front of the name of the task or behind it. -/
def ofLong? (task : Option Task) (name : String) : Option Opt :=
  match name, task with
  | "style", _ => some style
  | "grammar", _ => some grammar
  | "modifiers", _ => some modifiers
  | "strict", _ => some strict
  | "pretty", _ => some pretty
  | "verbose", _ => some verbose
  | "help", _ => some help
  | "version", none => some version
  | "syntax", some .dnf => some written
  | "true", some .eval => some truth
  | "input", some .eval => some input
  | _, _ => none

/-- The option of a short name, in front of the name of the task or behind it. -/
def ofShort? (task : Option Task) (name : Char) : Option Opt :=
  match name, task with
  | 's', _ => some style
  | 'g', _ => some grammar
  | 'm', _ => some modifiers
  | 'p', _ => some pretty
  | 'v', _ => some verbose
  | 'h', _ => some help
  | 'V', none => some version
  | 't', some .eval => some truth
  | 'i', some .eval => some input
  | _, _ => none

end Opt

/-- Why no program call is read. -/
inductive Stop
  /-- The arguments are refused. -/
  | usage
  /-- The version is asked for. -/
  | version
  /-- Help is asked for. -/
  | help
  deriving DecidableEq

/-- The options given on one side of the name of the task, and their values. -/
abbrev Given := List (Opt × String)

namespace Given

/-- Add an option, with its value or an empty one. -/
def add (g : Given) (o : Opt) (value : String) : Except Stop Given :=
  match o, o.arity with
  | .version, _ => .error .version
  | .help, _ => .error .help
  | _, .single | _, .switch =>
    if (g.lookup o).isSome then .error .usage else .ok (g ++ [(o, value)])
  | _, .append | _, .count => .ok (g ++ [(o, value)])

/-- Add the options of short names that share one dash. An option with a value takes what follows;
the option is given back if nothing does. -/
def addShort (task : Option Task) (g : Given) : List Char → Except Stop (Given × Option Opt)
  | [] => .ok (g, none)
  | c :: cs =>
    match Opt.ofShort? task c with
    | none => .error .usage
    | some o =>
      if o.takesValue then
        match cs with
        | [] => .ok (g, some o)
        | '=' :: value => return (← g.add o (String.ofList value), none)
        | value => return (← g.add o (String.ofList value), none)
      else do
        addShort task (← g.add o "") cs

/-- Add the option of a long name with what stands behind its sign of equality. The option is
given back if it needs a value and has none. -/
def addLong (task : Option Task) (g : Given) (cs : List Char) :
    Except Stop (Given × Option Opt) :=
  let name := String.ofList (cs.takeWhile (· != '='))
  match Opt.ofLong? task name, cs.dropWhile (· != '=') with
  | none, _ => .error .usage
  | some o, [] => if o.takesValue then .ok (g, some o) else return (← g.add o "", none)
  | some o, _ :: value =>
    if o.takesValue then return (← g.add o (String.ofList value), none) else .error .usage

end Given

/-- What is read of the arguments so far. -/
structure Reader where
  /-- The options in front of the name of the task. -/
  before : Given := []
  /-- The options behind it. -/
  behind : Given := []
  task : Option Task := none
  /-- The text that the task is done with. -/
  expression : Option String := none
  /-- The option that waits for its value. -/
  waiting : Option Opt := none
  /-- Whether nothing is an option any more. -/
  plainOnly : Bool := false

namespace Reader

/-- The options on the side of the name of the task that is read now. -/
def given (r : Reader) : Given :=
  if r.task.isSome then r.behind else r.before

/-- Set the options on this side, and the option that waits. -/
def set (r : Reader) (g : Given) (waiting : Option Opt) : Reader :=
  if r.task.isSome then { r with behind := g, waiting } else { r with before := g, waiting }

/-- Take an argument that is no option and no value of one. -/
def takePlain (r : Reader) (arg : String) : Except Stop Reader :=
  match r.task, r.expression with
  | none, _ =>
    if r.plainOnly then .error .usage
    else
      match Task.ofName? arg with
      | some task => .ok { r with task := some task }
      | none => if arg = "help" then .error .help else .error .usage
  | some .styles, _ | some _, some _ => .error .usage
  | some _, none => .ok { r with expression := some arg }

/-- Take an argument. -/
def take (r : Reader) (arg : String) : Except Stop Reader :=
  if r.plainOnly then r.takePlain arg
  else
    match arg.toList, r.waiting with
    | '-' :: _ :: _, some _ => .error .usage
    | _, some o => do
      return r.set (← r.given.add o arg) none
    | ['-', '-'], none => .ok { r with plainOnly := true }
    | '-' :: '-' :: cs, none => do
      let (g, waiting) ← r.given.addLong r.task cs
      return r.set g waiting
    | '-' :: c :: cs, none => do
      let (g, waiting) ← r.given.addShort r.task (c :: cs)
      return r.set g waiting
    | _, none => r.takePlain arg

/-- The value of an option that every task takes: the one behind the name of the task counts. -/
def value? (r : Reader) (o : Opt) : Option String :=
  (r.behind.lookup o).or (r.before.lookup o)

/-- The action, where the arguments end. -/
def action (r : Reader) : Except Stop Action :=
  match r.task, r.expression with
  | some .styles, _ => .ok .styles
  | some .tokens, some s => .ok (.command .tokens s none)
  | some .check, some s => .ok (.command .check s none)
  | some .dnf, some s => .ok (.command (.dnf (r.behind.lookup .written).isSome) s none)
  | some .minimize, some s => .ok (.command .minimize s none)
  | some .eval, some s =>
    let truths := (r.behind.filter fun (o, _) => o == .truth).map Prod.snd
    .ok (.command (.eval truths) s (r.behind.lookup .input))
  | _, _ => .error .usage

/-- The program call, where the arguments end. -/
def finish (r : Reader) : Except Stop Invocation :=
  if r.waiting.isSome then .error .usage
  else do
    return {
      style := r.value? .style
      grammar := r.value? .grammar
      modifiers := r.value? .modifiers
      strict := (r.value? .strict).isSome
      pretty := (r.value? .pretty).isSome
      action := ← r.action }

end Reader

/-- The program call of a list of arguments. -/
def ofArguments (args : List String) : Except Stop Invocation := do
  let r ← args.foldlM Reader.take {}
  r.finish

end Invocation

end PositiveLogic
