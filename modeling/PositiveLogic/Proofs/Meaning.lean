import PositiveLogic.Evaluation
import PositiveLogic.Formula.Clauses

/-!
# The meaning of formulas and clauses

A predicate without effects gives every leaf a truth value, and with it every formula and every
list of clauses. `Formula.value` and `Clauses.value` are these values, computed without an order of
evaluation.

* `Formula.satisfied_eq` and `Clauses.satisfied_eq`: an evaluation finds a witness exactly where the
  value is true.
* `Formula.value_toDnf` and `Formula.value_clauses`: bringing a formula into disjunctive normal form
  and listing its clauses keep its value.
-/

namespace PositiveLogic

variable {m : Type → Type} [Monad m] [LawfulMonad m]

namespace Token

/-- The truth value of a leaf. -/
def value (p : Leaf → Bool) (t : Leaf) : Bool := t.isTruth || p t

omit [LawfulMonad m] in
theorem holds_pure (p : Leaf → Bool) (t : Leaf) :
    holds (fun t => (pure (p t) : m Bool)) t = pure (t.value p) := by
  rw [holds, value]
  cases t.isTruth <;> rfl

end Token

namespace Clauses

/-! ## Clauses -/

/-- The truth value of a list of clauses: some clause has true leaves only. -/
def value (p : Leaf → Bool) (cs : Clauses Leaf) : Bool := cs.any fun c => c.all (Token.value p)

/-- Whether the evaluation of a list of clauses finds a witness. -/
def satisfied (p : Leaf → Bool) (cs : Clauses Leaf) : Bool :=
  (Id.run (cs.witness? fun t => pure (p t))).isSome

/-- The witness is the first clause whose leaves are all true. -/
theorem witness?_pure (p : Leaf → Bool) (cs : Clauses Leaf) :
    cs.witness? (fun t => (pure (p t) : m Bool)) =
      pure (cs.find? fun c => c.all (Token.value p)) := by
  have hclause : Clause.holds (fun t => (pure (p t) : m Bool)) =
      fun c => pure (c.all (Token.value p)) := by
    funext c
    rw [Clause.holds, funext (Token.holds_pure p), List.allM_pure]
  rw [witness?, hclause, List.findM?_pure]

theorem run_witness? (p : Leaf → Bool) (cs : Clauses Leaf) :
    Id.run (cs.witness? fun t => pure (p t)) = cs.find? fun c => c.all (Token.value p) := by
  rw [witness?_pure, Id.run_pure]

/-- **The evaluation of clauses finds a witness exactly where their value is true.** -/
theorem satisfied_eq (p : Leaf → Bool) (cs : Clauses Leaf) : cs.satisfied p = cs.value p := by
  rw [satisfied, run_witness?, List.isSome_find?]
  rfl

@[simp] theorem value_append (p : Leaf → Bool) (ls rs : Clauses Leaf) :
    value p (ls ++ rs) = (value p ls || value p rs) :=
  List.any_append

theorem value_map_append (p : Leaf → Bool) (l : Clause Leaf) (rs : Clauses Leaf) :
    value p (rs.map fun r => l ++ r) = (l.all (Token.value p) && value p rs) := by
  induction rs with
  | nil => simp [value]
  | cons r rs ih =>
    simp only [value, List.map_cons, List.any_cons, List.all_append] at ih ⊢
    rw [ih, Bool.and_or_distrib_left]

/-- **A product holds where both of its sides do.** -/
theorem value_product (p : Leaf → Bool) (ls rs : Clauses Leaf) :
    (product ls rs).value p = (ls.value p && rs.value p) := by
  induction ls with
  | nil => rfl
  | cons l ls ih =>
    have hcons : product (l :: ls) rs = (rs.map fun r => l ++ r) ++ product ls rs := rfl
    rw [hcons, value_append, value_map_append, ih, ← Bool.and_or_distrib_right]
    rfl

end Clauses

namespace Formula

/-! ## Formulas -/

/-- The truth value of a formula. -/
def value (p : Leaf → Bool) : Formula Leaf → Bool
  | leaf t => t.value p
  | and l r => l.value p && r.value p
  | or l r => l.value p || r.value p

/-- Whether the evaluation of a formula finds a witness. -/
def satisfied (p : Leaf → Bool) (e : Formula Leaf) : Bool :=
  (Id.run (e.witness? fun t => pure (p t))).isSome

theorem holds_pure (p : Leaf → Bool) (e : Formula Leaf) :
    e.holds (fun t => (pure (p t) : m Bool)) = pure (e.value p) := by
  induction e with
  | leaf t => exact Token.holds_pure p t
  | and l r ihl ihr =>
    rw [holds, ihl, ihr, value, pure_bind]
    cases l.value p <;> rfl
  | or l r ihl ihr =>
    rw [holds, ihl, ihr, value, pure_bind]
    cases l.value p <;> rfl

/-- The witness is the first alternative that is true. -/
theorem witness?_pure (p : Leaf → Bool) (e : Formula Leaf) :
    e.witness? (fun t => (pure (p t) : m Bool)) = pure (e.alternatives.find? (value p)) := by
  rw [witness?, funext (holds_pure p), List.findM?_pure]

theorem any_alternatives (p : Leaf → Bool) (e : Formula Leaf) :
    e.alternatives.any (value p) = e.value p := by
  induction e with
  | or l r ihl ihr => rw [alternatives, List.any_append, ihl, ihr, value]
  | _ => exact Bool.or_false _

/-- **The evaluation of a formula finds a witness exactly where its value is true.** -/
theorem satisfied_eq (p : Leaf → Bool) (e : Formula Leaf) : e.satisfied p = e.value p := by
  rw [satisfied, witness?_pure, Id.run_pure, List.isSome_find?, any_alternatives]

/-! ## Normal forms -/

theorem value_distributeRight (p : Leaf → Bool) (l r : Formula Leaf) :
    (distributeRight l r).value p = (l.value p && r.value p) := by
  induction r with
  | or a b iha ihb => rw [distributeRight, value, iha, ihb, value, Bool.and_or_distrib_left]
  | _ => rfl

/-- **Distribution is conjunction.** -/
theorem value_distribute (p : Leaf → Bool) (l r : Formula Leaf) :
    (distribute l r).value p = (l.value p && r.value p) := by
  induction l with
  | or a b iha ihb => rw [distribute, value, iha, ihb, value, Bool.and_or_distrib_right]
  | leaf t => exact value_distributeRight p (leaf t) r
  | and a b => exact value_distributeRight p (and a b) r

/-- **The disjunctive normal form of a formula has its value.** -/
theorem value_toDnf (p : Leaf → Bool) (e : Formula Leaf) : e.toDnf.value p = e.value p := by
  induction e with
  | leaf t => rfl
  | and l r ihl ihr => rw [toDnf, value_distribute, ihl, ihr, value]
  | or l r ihl ihr => rw [toDnf, value, ihl, ihr, value]

/-- **The clauses of a formula have its value.** -/
theorem value_clauses (p : Leaf → Bool) (e : Formula Leaf) :
    e.clauses.value p = e.value p := by
  induction e with
  | leaf t => simp [clauses, Clauses.value, value]
  | and l r ihl ihr => rw [clauses, Clauses.value_product, ihl, ihr, value]
  | or l r ihl ihr => rw [clauses, Clauses.value_append, ihl, ihr, value]

/-- **Four ways to evaluate agree**: a formula, its disjunctive normal form, the clauses of that
form and the clauses listed at once are satisfied by the same predicates. -/
theorem satisfied_normal_forms (p : Leaf → Bool) (e : Formula Leaf) :
    e.toDnf.satisfied p = e.satisfied p ∧
    e.toDnf.clauses.satisfied p = e.satisfied p ∧
    e.clauses.satisfied p = e.satisfied p := by
  refine ⟨?_, ?_, ?_⟩
  · rw [satisfied_eq, satisfied_eq, value_toDnf]
  · rw [Clauses.satisfied_eq, satisfied_eq, value_clauses, value_toDnf]
  · rw [Clauses.satisfied_eq, satisfied_eq, value_clauses]

end Formula

end PositiveLogic
