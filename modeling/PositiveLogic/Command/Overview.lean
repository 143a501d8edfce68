import PositiveLogic.Dialect.Basic

/-!
# The overview of the styles

A table of the named dialects, with an example of each, and the rules they share.
-/

namespace PositiveLogic

namespace Style

/-- A text, filled up with spaces. -/
def cell (width : Nat) (s : String) : String :=
  s ++ String.ofList (List.replicate (width - s.length) ' ')

/-- A row of the table. -/
def row (style and or quote example_ : String) : String :=
  "  " ++ cell 8 style ++ " " ++ cell 6 and ++ " " ++ cell 6 or ++ " " ++ cell 6 quote ++ " "
    ++ example_ ++ "\n"

/-- The row of a style. -/
def overviewRow (s : Style) : String :=
  let d := s.dialect
  let q := d.quote.toString
  row s.name d.andOp d.orOp q
    ("a " ++ d.andOp ++ " (" ++ q ++ "b c" ++ q ++ " " ++ d.orOp ++ " f(1, 2))")

/-- The overview of all styles. -/
def overview : String :=
  "BOOLEX SYNTAX STYLES\n\n" ++ row "style" "and" "or" "quote" "example"
    ++ String.join (all.map overviewRow)
    ++ "\nCOMMON RULES\n\n"
    ++ "  ( )               Grouping; `name(...)` is a function literal\n"
    ++ "  ,                 Parameter separator inside function literals\n"
    ++ "  \\                 Escape: the next character is taken literally\n"
    ++ "  --modifiers '!~'  Leading characters recorded as literal modifiers\n\n"
    ++ "Run 'boolex dnf <expr>' to see the clauses of an expression.\n"

end Style

end PositiveLogic
