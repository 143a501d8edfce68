import PositiveLogic.Formula.Basic
import PositiveLogic.Token.Basic

/-!
# The clauses of a formula

A clause is a conjunction of leaves, and a list of clauses is their disjunction. `Formula.clauses` lists
the clauses of a formula: a conjunction has the product of the clauses of its sides, a disjunction has
one after the other.

Their number may grow exponentially, so `Formula.count` computes it without the clauses, and the bounded
forms of the conversions count first and refuse a formula with too many. `Limits` are the bounds on what
a text may ask for.
-/

namespace PositiveLogic

/-! ## Clauses -/

/-- A conjunction of leaves. -/
abbrev Clause (α : Type) := List α

/-- A disjunction of clauses. -/
abbrev Clauses (α : Type) := List (Clause α)

namespace Clause

/-- The texts of the leaves of a clause. -/
def texts (c : Clause Leaf) : List String :=
  c.map Token.display

/-- A clause as it is shown: the texts in brackets. -/
def display (c : Clause Leaf) : String :=
  "[" ++ ", ".intercalate (texts c) ++ "]"

end Clause

namespace Clauses

variable {α : Type}

/-- Each clause of the left list followed by each clause of the right one, the left one changing
slowest: a conjunction of disjunctions. -/
def product (ls rs : Clauses α) : Clauses α :=
  ls.flatMap fun l => rs.map fun r => l ++ r

/-- A list of clauses as it is shown: the clauses in brackets. -/
def display (cs : Clauses Leaf) : String :=
  "[" ++ ", ".intercalate (cs.map Clause.display) ++ "]"

theorem length_product (ls rs : Clauses α) :
    (product ls rs).length = ls.length * rs.length := by
  induction ls with
  | nil => simp [product]
  | cons l ls ih =>
    have ih : (ls.flatMap fun l => rs.map fun r => l ++ r).length = ls.length * rs.length := ih
    simp [product, ih, Nat.succ_mul, Nat.add_comm]

end Clauses

/-! ## Bounds -/

/-- Bounds on the nesting of groups and on the number of clauses. -/
structure Limits where
  maxDepth : Nat := 256
  maxClauses : Nat := 65536
  deriving DecidableEq

namespace Limits

/-- Wide bounds, for texts that are trusted. -/
def permissive : Limits := ⟨4096, 4194304⟩

/-- Narrow bounds, for texts that are not. -/
def strict : Limits := ⟨32, 1024⟩

end Limits

/-! ## The clauses of a formula -/

theorem bind_eq_ok_iff {ε α β : Type} {x : Except ε α} {f : α → Except ε β} {b : β} :
    (x >>= f) = .ok b ↔ ∃ a, x = .ok a ∧ f a = .ok b := by
  cases x <;> simp [bind, Except.bind]

/-- A formula has more clauses than allowed. -/
structure TooManyClauses where
  limit : Nat
  deriving DecidableEq

namespace TooManyClauses

/-- What is shown of this error. -/
def message (e : TooManyClauses) : String :=
  let limit := e.limit
  s!"maximum clause count exceeded ({limit})"

end TooManyClauses

namespace Formula

variable {α : Type}

/-- The clauses of a formula. -/
def clauses : Formula α → Clauses α
  | leaf a => [[a]]
  | and l r => Clauses.product l.clauses r.clauses
  | or l r => l.clauses ++ r.clauses

/-- The largest number of clauses that is told apart from larger ones. -/
def countCeiling : Nat := 18446744073709551615

/-- The product of two numbers of clauses. -/
def countProduct (m n : Nat) : Nat := min (m * n) countCeiling

/-- The sum of two numbers of clauses. -/
def countSum (m n : Nat) : Nat := min (m + n) countCeiling

/-- A number of clauses, if it is allowed. -/
def countWithin (limit n : Nat) : Except TooManyClauses Nat :=
  if limit < n then .error ⟨limit⟩ else .ok n

/-- The number of clauses of a formula, without expanding it. It stops at the first subformula
that has too many. -/
def count (limit : Nat) : Formula α → Except TooManyClauses Nat
  | leaf _ => countWithin limit 1
  | and l r => do
    let m ← l.count limit
    let n ← r.count limit
    countWithin limit (countProduct m n)
  | or l r => do
    let m ← l.count limit
    let n ← r.count limit
    countWithin limit (countSum m n)

/-- A list of clauses, if it is short enough. -/
def clausesWithin (limit : Nat) (cs : Clauses α) : Except TooManyClauses (Clauses α) :=
  if limit < cs.length then .error ⟨limit⟩ else .ok cs

/-- The clauses of a formula, where no list that is built on the way may be too long. -/
def expand (limit : Nat) : Formula α → Except TooManyClauses (Clauses α)
  | leaf a => clausesWithin limit [[a]]
  | and l r => do
    let ls ← l.expand limit
    let rs ← r.expand limit
    if limit < countProduct ls.length rs.length then .error ⟨limit⟩
    else clausesWithin limit (Clauses.product ls rs)
  | or l r => do
    let ls ← l.expand limit
    let rs ← r.expand limit
    clausesWithin limit (ls ++ rs)

/-- The clauses of a formula, if they are not too many. -/
def clausesBounded (limits : Limits) (e : Formula α) : Except TooManyClauses (Clauses α) := do
  let _ ← e.count limits.maxClauses
  e.expand limits.maxClauses

/-- The disjunctive normal form of a formula, if it has not too many clauses. -/
def toDnfBounded (limits : Limits) (e : Formula α) : Except TooManyClauses (Formula α) := do
  let _ ← e.count limits.maxClauses
  return e.toDnf

end Formula

end PositiveLogic
