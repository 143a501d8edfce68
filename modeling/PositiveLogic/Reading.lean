import PositiveLogic.Formula.Clauses
import PositiveLogic.Formula.Parser
import PositiveLogic.Token.Adjacency
import PositiveLogic.Token.Scan

/-!
# From text to formulas

`Formula.read` scans a text and parses its tokens; `Formula.readChecked` looks at neighbouring
tokens in between. Both number the literals of the text from a supply of fresh numbers and give
the number after the last one. An `Error` says at which stage a text was refused.
-/

namespace PositiveLogic

/-- What can be wrong with a text. -/
inductive Error
  | scan (e : ScanError)
  | adjacency (e : AdjacencyError)
  | parse (e : ParseError Literal)
  | clause (e : TooManyClauses)
  deriving DecidableEq

namespace Error

/-- What is shown of an error. -/
def message : Error → String
  | scan e => "lex error: " ++ e.message
  | adjacency e => "grammar error: " ++ e.message
  | parse e => "parse error: " ++ e.message
  | clause e => "clause error: " ++ e.message

end Error

namespace Token

/-- The numbered tokens of a text, and the number after the last one. -/
def read (d : Dialect) (next : Nat) (s : String) : Except Error (List Leaf × Nat) :=
  match ofText d s with
  | .ok ts => .ok (stampAll next ts)
  | .error e => .error (.scan e)

end Token

namespace Formula

/-- The formula of a list of numbered tokens. -/
def readTokens (limits : Limits) (ts : List Leaf) : Except Error (Formula Leaf) :=
  (ofTokens limits.maxDepth ts).mapError .parse

/-- The formula of a text. -/
def read (d : Dialect) (limits : Limits) (next : Nat) (s : String) :
    Except Error (Formula Leaf × Nat) := do
  let (ts, next) ← Token.read d next s
  let e ← readTokens limits ts
  return (e, next)

/-- The formula of a text whose neighbouring tokens pass the test. -/
def readChecked (d : Dialect) (limits : Limits) (next : Nat) (s : String) :
    Except Error (Formula Leaf × Nat) := do
  let (ts, next) ← Token.read d next s
  (Token.checkNeighbours ts).mapError .adjacency
  let e ← readTokens limits ts
  return (e, next)

end Formula

end PositiveLogic
