import PositiveLogic.Formula.Clauses
import PositiveLogic.Formula.Printer

/-!
# From clauses to formulas

A clause becomes a chain of conjunctions, and a list of clauses a chain of disjunctions of these, both
nested to the left. Where nothing is listed the truth leaf stands.

In the factored form the leaves that all clauses share are taken out in front: `(a and b) or (a and c)`
becomes `a and (b or c)`. If a clause consists of shared leaves only, it absorbs the others.
-/

namespace PositiveLogic

namespace Formula

/-- The conjunction of the leaves of a clause. -/
def ofClause : Clause Leaf → Formula Leaf
  | [] => leaf Token.truth
  | t :: ts => ts.foldl (fun e t => and e (leaf t)) (leaf t)

/-- The disjunction of the clauses of a list. -/
def ofClauses : Clauses Leaf → Formula Leaf
  | [] => leaf Token.truth
  | c :: cs => cs.foldl (fun e c => or e (ofClause c)) (ofClause c)

end Formula

namespace Clauses

/-- A list of clauses in a dialect. -/
def write (d : Dialect) (cs : Clauses Leaf) : String :=
  (Formula.ofClauses cs).write d

end Clauses

/-! ## Shared leaves -/

namespace Clauses

/-- The leaves that all clauses share, each once, in the order of the first clause. -/
def shared : Clauses Leaf → List Leaf
  | [] => []
  | c :: cs => (c.filter fun t => cs.all fun c => c.contains t).eraseDups

/-- The clauses without some leaves. -/
def without (cs : Clauses Leaf) (ts : List Leaf) : Clauses Leaf :=
  cs.map fun c => c.filter fun t => !ts.contains t

/-- The formula of a list of clauses, with the shared leaves in front. -/
def factor (cs : Clauses Leaf) : Formula Leaf :=
  let shared := cs.shared
  let remainder := cs.without shared
  if shared.isEmpty then Formula.ofClauses cs
  else if remainder.any List.isEmpty then Formula.ofClause shared
  else .and (Formula.ofClause shared) (Formula.ofClauses remainder)

end Clauses

namespace Formula

/-- A formula as its clauses with the shared leaves in front. -/
def minimize (e : Formula Leaf) : Formula Leaf :=
  e.toDnf.clauses.factor

/-- A formula as its clauses with the shared leaves in front, if it has not too many clauses. -/
def minimizeBounded (limits : Limits) (e : Formula Leaf) :
    Except TooManyClauses (Formula Leaf) := do
  let cs ← e.clausesBounded limits
  return cs.factor

end Formula

end PositiveLogic
