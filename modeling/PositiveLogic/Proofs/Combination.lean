import Mathlib.Data.List.ProdSigma
import PositiveLogic.Clause.Combination
import PositiveLogic.Proofs.Rebuilding

/-!
# Combination of clauses

Two lists of clauses are combined by way of formulas: they are rebuilt, joined, brought into disjunctive
normal form and listed again. Nothing is lost on this way but the gaps, which the truth leaf fills, so
a combination is a plain operation on lists.

* `Clauses.combineOr_eq` and `Clauses.combineAnd_eq`: a disjunction puts one list behind the other, and
  a conjunction joins each clause of the left list to each clause of the right one.
* `Clauses.combination_laws`: the laws of these operations, as equations between lists. Conjunction
  distributes over a disjunction on its left. Over one on its right it does so up to the order of
  the clauses only.
-/

namespace PositiveLogic

namespace Clauses

section Product

variable {α : Type}

/-- The product of two lists of clauses joins the pairs of their clauses, in the order of the pairs. -/
theorem product_eq_map (ls rs : Clauses α) :
    product ls rs = (ls ×ˢ rs).map fun pair => pair.1 ++ pair.2 := by
  induction ls with
  | nil => rfl
  | cons l ls ih =>
    rw [List.product_cons, List.map_append, List.map_map, ← ih]
    rfl

theorem product_assoc (ls ms rs : Clauses α) :
    product (product ls ms) rs = product ls (product ms rs) := by
  simp [product, List.flatMap_assoc, List.flatMap_map, List.map_flatMap, Function.comp_def]

end Product

/-! ## What a combination gives -/

variable {ls ms rs : Clauses Leaf}

theorem combineAnd_eq (ls rs : Clauses Leaf) :
    combineAnd ls rs = product ls.orTruth rs.orTruth := by
  rw [combineAnd, Formula.clauses_toDnf, Formula.clauses, Formula.clauses_ofClauses,
    Formula.clauses_ofClauses]

theorem combineOr_eq (ls rs : Clauses Leaf) : combineOr ls rs = ls.orTruth ++ rs.orTruth := by
  rw [combineOr, Formula.clauses_toDnf, Formula.clauses, Formula.clauses_ofClauses,
    Formula.clauses_ofClauses]

theorem orTruth_combineAnd : (combineAnd ls rs).orTruth = combineAnd ls rs :=
  Formula.orTruth_clauses _

theorem orTruth_combineOr : (combineOr ls rs).orTruth = combineOr ls rs :=
  Formula.orTruth_clauses _

/-! ## Laws -/

theorem combineAnd_assoc : combineAnd (combineAnd ls ms) rs = combineAnd ls (combineAnd ms rs) := by
  rw [combineAnd_eq _ rs, combineAnd_eq ls (combineAnd ms rs), orTruth_combineAnd,
    orTruth_combineAnd, combineAnd_eq, combineAnd_eq, product_assoc]

theorem combineOr_assoc : combineOr (combineOr ls ms) rs = combineOr ls (combineOr ms rs) := by
  rw [combineOr_eq _ rs, combineOr_eq ls (combineOr ms rs), orTruth_combineOr,
    orTruth_combineOr, combineOr_eq, combineOr_eq, List.append_assoc]

/-- **Conjunction distributes over a disjunction on its left.** -/
theorem combineAnd_combineOr :
    combineAnd (combineOr ls ms) rs = combineOr (combineAnd ls rs) (combineAnd ms rs) := by
  rw [combineAnd_eq (combineOr ls ms), combineOr_eq (combineAnd ls rs), orTruth_combineAnd,
    orTruth_combineAnd, orTruth_combineOr, combineOr_eq, combineAnd_eq, combineAnd_eq,
    product_append_left]

/-! ## Meaning -/

/-- A conjunction of lists holds where both do, where a list without clauses counts as truth. -/
theorem satisfied_combineAnd (p : Leaf → Bool) : (combineAnd ls rs).satisfied p =
    ((ls.isEmpty || ls.satisfied p) && (rs.isEmpty || rs.satisfied p)) := by
  rw [← Formula.satisfied_ofClauses, ← Formula.satisfied_ofClauses, satisfied_eq, combineAnd,
    Formula.value_clauses, Formula.value_toDnf, Formula.value, Formula.satisfied_eq,
    Formula.satisfied_eq]

/-- A disjunction of lists holds where one does, where a list without clauses counts as truth. -/
theorem satisfied_combineOr (p : Leaf → Bool) : (combineOr ls rs).satisfied p =
    ((ls.isEmpty || ls.satisfied p) || (rs.isEmpty || rs.satisfied p)) := by
  rw [← Formula.satisfied_ofClauses, ← Formula.satisfied_ofClauses, satisfied_eq, combineOr,
    Formula.value_clauses, Formula.value_toDnf, Formula.value, Formula.satisfied_eq,
    Formula.satisfied_eq]

/-- **Combinations are concatenation and product**, once the truth leaf fills the gaps. So both are
associative, and conjunction distributes over disjunction from the right, as equations between lists;
and they mean what they say, where a list without clauses counts as truth. -/
theorem combination_laws (ls ms rs : Clauses Leaf) :
    combineOr ls rs = ls.orTruth ++ rs.orTruth ∧
    combineAnd ls rs = (ls.orTruth ×ˢ rs.orTruth).map (fun pair => pair.1 ++ pair.2) ∧
    combineOr (combineOr ls ms) rs = combineOr ls (combineOr ms rs) ∧
    combineAnd (combineAnd ls ms) rs = combineAnd ls (combineAnd ms rs) ∧
    combineAnd (combineOr ls ms) rs = combineOr (combineAnd ls rs) (combineAnd ms rs) ∧
    ∀ p, (combineAnd ls rs).satisfied p =
        ((ls.isEmpty || ls.satisfied p) && (rs.isEmpty || rs.satisfied p)) ∧
      (combineOr ls rs).satisfied p =
        ((ls.isEmpty || ls.satisfied p) || (rs.isEmpty || rs.satisfied p)) := by
  refine ⟨combineOr_eq ls rs, ?_, combineOr_assoc, combineAnd_assoc, combineAnd_combineOr,
    fun p => ⟨satisfied_combineAnd p, satisfied_combineOr p⟩⟩
  rw [combineAnd_eq, product_eq_map]

/-- Over a disjunction on its right, conjunction gives the clauses in another order. -/
example :
    let clause (i : Nat) : Clause Leaf := [.literal ⟨i, [], "a", none⟩]
    let ls := [clause 1, clause 2]
    combineAnd ls (combineOr [clause 3] [clause 4]) ≠
      combineOr (combineAnd ls [clause 3]) (combineAnd ls [clause 4]) := by
  decide

end Clauses

end PositiveLogic
