import PositiveLogic.Clause.Factoring

/-!
# Combination and injection

Two lists of clauses are joined as formulas and listed again. A list without clauses counts as truth
here.

A leaf of a clause can be replaced by a formula. The clauses of the formula take its place: the clause it
stood in becomes one clause for each of them, and all other clauses stay as they are.
-/

namespace PositiveLogic

/-! ## Combination -/

namespace Clauses

/-- The clauses of the conjunction of two lists. -/
def combineAnd (ls rs : Clauses Leaf) : Clauses Leaf :=
  (Formula.and (.ofClauses ls) (.ofClauses rs)).toDnf.clauses

/-- The clauses of the disjunction of two lists. -/
def combineOr (ls rs : Clauses Leaf) : Clauses Leaf :=
  (Formula.or (.ofClauses ls) (.ofClauses rs)).toDnf.clauses

end Clauses

/-! ## Injection -/

/-- What can be wrong with the place of an injection. -/
inductive InjectionError
  /-- There is no such clause. -/
  | clauseOutOfRange (index size : Nat)
  /-- There is no such leaf in the clause. -/
  | leafOutOfRange (clause index size : Nat)
  /-- The leaf is in no clause. -/
  | notFound (target : Leaf)
  deriving DecidableEq

namespace InjectionError

/-- What is shown of an error. -/
def message : InjectionError → String
  | clauseOutOfRange index size => s!"clause index {index} out of range ({size} clauses)"
  | leafOutOfRange clause index size =>
    s!"token index {index} out of range in clause {clause} ({size} tokens)"
  | notFound target =>
    let text := target.display
    s!"token {text} not found in any clause"

end InjectionError

namespace Clauses

/-- Replace the leaf at place `j` of clause `i`. -/
def injectAt (cs : Clauses Leaf) (i j : Nat) (e : Formula Leaf) :
    Except InjectionError (Clauses Leaf) :=
  match cs[i]? with
  | none => .error (.clauseOutOfRange i cs.length)
  | some target =>
    if target.length ≤ j then .error (.leafOutOfRange i j target.length)
    else
      let inner := e.toDnf.clauses.map fun c => target.take j ++ c ++ target.drop (j + 1)
      .ok (cs.take i ++ inner ++ cs.drop (i + 1))

/-- The first place of a leaf, clause by clause: the place of the clause, and the leaf's in it. -/
def place? (t : Leaf) : Clauses Leaf → Option (Nat × Nat)
  | [] => none
  | c :: cs =>
    match c.idxOf? t with
    | some j => some (0, j)
    | none => (place? t cs).map fun (i, j) => (i + 1, j)

/-- Replace the first occurrence of a leaf. -/
def injectFor (cs : Clauses Leaf) (t : Leaf) (e : Formula Leaf) :
    Except InjectionError (Clauses Leaf) :=
  match cs.place? t with
  | none => .error (.notFound t)
  | some (i, j) => cs.injectAt i j e

end Clauses

namespace Formula

/-- Replace the first occurrence of a leaf in the clauses of a formula, and rebuild it. -/
def injectFor (e : Formula Leaf) (t : Leaf) (r : Formula Leaf) :
    Except InjectionError (Formula Leaf) := do
  let cs ← Clauses.injectFor e.toDnf.clauses t r
  return ofClauses cs

end Formula

end PositiveLogic
