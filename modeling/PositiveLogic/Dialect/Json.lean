import PositiveLogic.Dialect.Basic
import PositiveLogic.Json.Parser

/-!
# Dialects in JSON

A dialect is written as an object with a field for each of its parts, or as an array of the parts
in order. A part that is missing has its default. A field with another name is passed over; a
field that comes twice or has a value of the wrong kind is refused.
-/

namespace PositiveLogic.Dialect

/-- The field names of the parts, in order, and how each part is set from a value. -/
def parts : List (String × (Dialect → Json → Option Dialect)) := [
  ("and_operator", fun d v => v.text?.map fun s => { d with andOp := s }),
  ("or_operator", fun d v => v.text?.map fun s => { d with orOp := s }),
  ("open_container", fun d v => v.char?.map fun c => { d with opening := c }),
  ("close_container", fun d v => v.char?.map fun c => { d with closing := c }),
  ("quote", fun d v => v.char?.map fun c => { d with quote := c }),
  ("ignore_operators_in_quotes",
    fun d v => v.bool?.map fun b => { d with ignoreOperatorsInQuotes := b }),
  ("modifiers",
    fun d v => (v.listOf? Json.char?).map fun cs => { d with modifiers := CharSet.ofList cs }),
  ("split_on_whitespace", fun d v => v.bool?.map fun b => { d with splitOnBlank := b }),
  ("parameter_separator", fun d v => v.char?.map fun c => { d with separator := c })]

/-- Set the parts that fields name, each at most once and none of those in `seen`. -/
def setFields (seen : List String) (d : Dialect) :
    List (Option String × Json) → Option Dialect
  | [] => some d
  | (none, _) :: _ => none
  | (some name, v) :: fields =>
    match parts.lookup name with
    | none => setFields seen d fields
    | some set =>
      if seen.contains name then none
      else (set d v).bind fun d => setFields (name :: seen) d fields

/-- Set parts in order. -/
def setItems (d : Dialect) :
    List (String × (Dialect → Json → Option Dialect)) → List Json → Option Dialect
  | _, [] => some d
  | [], _ :: _ => none
  | (_, set) :: parts, v :: vs => (set d v).bind fun d => setItems d parts vs

/-- The dialect of a value. -/
def ofJson? : Json → Option Dialect
  | .object fields => setFields [] {} fields
  | .array items => setItems {} parts items
  | _ => none

/-- The dialect of a text. -/
def ofJsonText? (s : String) : Option Dialect :=
  (Json.ofText? s).bind ofJson?

end PositiveLogic.Dialect
