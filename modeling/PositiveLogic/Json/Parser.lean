import PositiveLogic.Json.Lexeme

/-!
# From lexemes to JSON values

The parser is a machine that takes one lexeme at a time and keeps the arrays and objects it is in
on a stack. `Json.ofText?` reads a text that holds one value.
-/

namespace PositiveLogic.Json

/-- What is read of an array or an object in front of the value that comes next, newest first. -/
inductive Frame
  | items (before : List Json)
  | fields (before : List (Option String × Json)) (key : Option String)

/-- A state of the parser. -/
inductive State
  /-- A value comes next. -/
  | value (stack : List Frame)
  /-- A value or the end of an empty array comes next. -/
  | firstItem (stack : List Frame)
  /-- A key or the end of an empty object comes next. -/
  | firstKey (stack : List Frame)
  /-- A key comes next. -/
  | key (stack : List Frame) (before : List (Option String × Json))
  /-- A colon comes next. -/
  | colon (stack : List Frame) (before : List (Option String × Json)) (key : Option String)
  /-- A value was read. -/
  | after (stack : List Frame) (v : Json)

namespace State

/-- Take a lexeme where a value comes next. -/
def stepValue (stack : List Frame) : Lexeme → Option State
  | .beginArray => some (firstItem stack)
  | .beginObject => some (firstKey stack)
  | .string content => some (after stack (.string content))
  | .word v => some (after stack v)
  | _ => none

/-- Take a lexeme behind a value. -/
def stepAfter (v : Json) : List Frame → Lexeme → Option State
  | .items before :: stack, .comma => some (value (.items (v :: before) :: stack))
  | .items before :: stack, .endArray => some (after stack (.array (v :: before).reverse))
  | .fields before k :: stack, .comma => some (key stack ((k, v) :: before))
  | .fields before k :: stack, .endObject =>
    some (after stack (.object ((k, v) :: before).reverse))
  | _, _ => none

/-- Take a lexeme. -/
def step : State → Lexeme → Option State
  | value stack, x => stepValue stack x
  | firstItem stack, .endArray => some (after stack (.array []))
  | firstItem stack, x => stepValue (.items [] :: stack) x
  | firstKey stack, .endObject => some (after stack (.object []))
  | firstKey stack, .string k => some (colon stack [] k)
  | key stack before, .string k => some (colon stack before k)
  | colon stack before k, .colon => some (value (.fields before k :: stack))
  | after stack v, x => stepAfter v stack x
  | _, _ => none

/-- The value, where the lexemes end. -/
def finish : State → Option Json
  | after [] v => some v
  | _ => none

end State

/-- The value of a text. -/
def ofText? (s : String) : Option Json := do
  let xs ← Lexeme.ofText? s.toList
  let state ← xs.foldlM State.step (State.value [])
  state.finish

end PositiveLogic.Json
