import PositiveLogic.Formula.Basic
import PositiveLogic.Token.Basic

/-!
# From tokens to formulas

Conjunction binds stronger than disjunction, both associate to the left, and groups nest up to a
given depth. The parser is a machine that takes one token at a time. Its `State` keeps, for the
innermost group and for every group around it, what is read of that group so far; `State.step`
takes a token and `State.finish` ends the text. An error is found at the first token that cannot
stand where it is. `State.run_append` says that tokens are taken one list after the other.
-/

namespace PositiveLogic

/-- What can be wrong with a list of tokens. -/
inductive ParseError (α : Type)
  /-- The tokens end where an operand is expected. -/
  | unexpectedEnd
  /-- A group has to be closed here. -/
  | expectedClose (index : Nat)
  /-- An operand is expected here. -/
  | unexpectedToken (index : Nat) (found : Token α)
  /-- The formula is complete in front of this token. -/
  | unexpectedTrailing (index : Nat) (found : Token α)
  /-- The groups nest deeper than allowed. -/
  | tooDeep (limit : Nat)
  deriving DecidableEq

namespace ParseError

/-- What is shown of an error. -/
def message : ParseError Literal → String
  | unexpectedEnd => "unexpected end of input"
  | expectedClose index => s!"expected closing container at token {index}"
  | unexpectedToken index found =>
    let text := found.display
    s!"unexpected token {text} at token {index}"
  | unexpectedTrailing index found =>
    let text := found.display
    s!"unexpected trailing token {text} at token {index}"
  | tooDeep limit => s!"maximum nesting depth exceeded ({limit})"

end ParseError

namespace Formula

variable {α : Type}

/-- What is read of a group in front of the operand that comes next: the disjunction that ends in
the last `or`, and behind it the conjunction that ends in the last `and`. -/
structure Pending (α : Type) where
  disjunction : Option (Formula α) := none
  conjunction : Option (Formula α) := none

namespace Pending

/-- The conjunction with one more operand. -/
def term (p : Pending α) (operand : Formula α) : Formula α :=
  match p.conjunction with
  | none => operand
  | some c => .and c operand

/-- The disjunction whose last operand ends in the given one. -/
def sum (p : Pending α) (operand : Formula α) : Formula α :=
  match p.disjunction with
  | none => p.term operand
  | some s => .or s (p.term operand)

end Pending

/-- A state of the parser. -/
structure State (α : Type) where
  /-- The number of tokens taken. -/
  index : Nat := 0
  /-- The number of groups that are open. -/
  depth : Nat := 0
  /-- What is read of the groups around the innermost one, from the inside out. -/
  outer : List (Pending (Token α)) := []
  /-- What is read of the innermost group. -/
  inner : Pending (Token α) := {}
  /-- The operand that was just read, unless one is expected. -/
  operand : Option (Formula (Token α)) := none

namespace State

/-- Take a token where an operand is expected. -/
def stepOperand (maxDepth : Nat) (s : State α) (t : Token α) :
    Except (ParseError α) (State α) :=
  match t with
  | .literal _ => .ok { s with index := s.index + 1, operand := some (.leaf t) }
  | .opening =>
    if maxDepth ≤ s.depth then .error (.tooDeep maxDepth)
    else .ok {
      index := s.index + 1, depth := s.depth + 1, outer := s.inner :: s.outer, inner := {},
      operand := none }
  | _ => .error (.unexpectedToken s.index t)

/-- Take a token behind an operand. -/
def stepOperator (s : State α) (operand : Formula (Token α)) (t : Token α) :
    Except (ParseError α) (State α) :=
  match t, s.outer with
  | .and, _ => .ok { s with
      index := s.index + 1,
      inner := { s.inner with conjunction := some (s.inner.term operand) }, operand := none }
  | .or, _ => .ok { s with
      index := s.index + 1,
      inner := { disjunction := some (s.inner.sum operand) }, operand := none }
  | .closing, around :: outer => .ok {
      index := s.index + 1, depth := s.depth - 1, outer := outer, inner := around,
      operand := some (s.inner.sum operand) }
  | _, [] => .error (.unexpectedTrailing s.index t)
  | _, _ :: _ => .error (.expectedClose s.index)

/-- Take a token. -/
def step (maxDepth : Nat) (s : State α) (t : Token α) : Except (ParseError α) (State α) :=
  match s.operand with
  | none => s.stepOperand maxDepth t
  | some operand => s.stepOperator operand t

/-- Take the tokens of a list. -/
def run (maxDepth : Nat) (s : State α) : List (Token α) → Except (ParseError α) (State α)
  | [] => .ok s
  | t :: ts =>
    match s.step maxDepth t with
    | .ok s => run maxDepth s ts
    | .error e => .error e

theorem run_append (maxDepth : Nat) (s : State α) (ts us : List (Token α)) :
    s.run maxDepth (ts ++ us) = (s.run maxDepth ts).bind fun s => s.run maxDepth us := by
  induction ts generalizing s with
  | nil => rfl
  | cons t ts ih =>
    simp only [List.cons_append, run]
    cases s.step maxDepth t with
    | ok s => exact ih s
    | error e => rfl

/-- The formula, where the tokens end. -/
def finish (s : State α) : Except (ParseError α) (Formula (Token α)) :=
  match s.operand, s.outer with
  | none, _ => .error .unexpectedEnd
  | some operand, [] => .ok (s.inner.sum operand)
  | some _, _ :: _ => .error (.expectedClose s.index)

end State

/-- The formula of a list of tokens, with groups nested up to `maxDepth`. -/
def ofTokens (maxDepth : Nat) (ts : List (Token α)) :
    Except (ParseError α) (Formula (Token α)) :=
  match State.run maxDepth {} ts with
  | .ok s => s.finish
  | .error e => .error e

end Formula

end PositiveLogic
