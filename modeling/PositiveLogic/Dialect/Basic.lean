import PositiveLogic.Text

/-!
# Dialects

A `Dialect` is one written form of formulas: the spelling of the two operators, the characters that open
and close a group and a call's parameters, the quote, the modifiers that may stand in front of a literal
and the separator of parameters. The escape character is the same in every dialect.

A `Style` is one of the four dialects that have a name, and `Style.ofName?` finds it by the names that it
is asked for by.
-/

namespace PositiveLogic

/-- One written form of formulas. -/
structure Dialect where
  /-- The spelling of conjunction; an empty spelling is never read. -/
  andOp : String := "&&"
  /-- The spelling of disjunction; an empty spelling is never read. -/
  orOp : String := "||"
  /-- Opens a group, and the parameters of a call. -/
  opening : Char := '('
  /-- Closes a group, and the parameters of a call. -/
  closing : Char := ')'
  /-- Stands at both ends of a quoted literal. -/
  quote : Char := '\''
  /-- Recorded only: an operator inside quotes is text whatever this says. -/
  ignoreOperatorsInQuotes : Bool := true
  /-- The characters taken off the front of a literal. -/
  modifiers : CharSet := CharSet.empty
  /-- Whether a blank ends a literal. -/
  splitOnBlank : Bool := true
  /-- Stands between the parameters of a call. -/
  separator : Char := ','
  deriving DecidableEq

/-- The character that takes the next one literally, in every dialect. -/
def escape : Char := '\\'

namespace Dialect

/-- Whether a character is taken off the front of a literal. -/
def isModifier (d : Dialect) (c : Char) : Bool :=
  d.modifiers.contains c

end Dialect

/-! ## Named dialects -/

/-- The named dialects. -/
inductive Style
  | c
  | python
  | matlab
  | sql
  deriving DecidableEq

namespace Style

/-- All styles, in the order in which they are shown. -/
def all : List Style := [.c, .python, .matlab, .sql]

/-- The name a style is shown with. -/
def name : Style → String
  | c => "c"
  | python => "python"
  | matlab => "matlab"
  | sql => "sql"

/-- The dialect of a style. -/
def dialect : Style → Dialect
  | c => { quote := '"' }
  | python => { andOp := "and", orOp := "or" }
  | matlab => { andOp := "&", orOp := "|" }
  | sql => { andOp := "AND", orOp := "OR" }

/-- The style of a name in small letters. -/
def ofSmallName? : String → Option Style
  | "c" | "c-style" => some c
  | "python" | "py" => some python
  | "matlab" | "m" => some matlab
  | "sql" => some sql
  | _ => none

/-- The style of a name, in letters of either case. Only the letters of ASCII matter: no other
character has one of the letters of these names as its small form. -/
def ofName? (s : String) : Option Style :=
  ofSmallName? (String.ofList (s.toList.map Char.toLower))

theorem ofName?_name (s : Style) : ofName? s.name = some s := by
  cases s <;> decide

end Style

end PositiveLogic
