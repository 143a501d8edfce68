import PositiveLogic.Proofs.Alternatives
import PositiveLogic.Proofs.Bounds

/-!
# The shape of a normal form

`Formula.IsDnf` follows the recursion of a formula. Said of its subformulas, no conjunction among them
has a disjunction among its own (`Formula.OrBelowAnd`). The conversion `Formula.toDnf` gives the
formulas of this shape and no others, and leaves exactly these as they are.

* `Formula.isDnf_iff`: the two ways to say the shape agree.
* `Formula.toDnf_map`: the conversion does not look at the leaves, and neither does the shape.
* `Formula.toDnf_exact`: the formulas that are given, those that stay, and their alternatives, which
  are the clauses.
-/

namespace PositiveLogic

namespace Formula

variable {α β : Type} {e f l r : Formula α}

/-! ## Disjunctions below conjunctions -/

/-- Some conjunction in a formula has a disjunction in it. -/
def OrBelowAnd (e : Formula α) : Prop :=
  ∃ l r, and l r ∈ e.subformulas ∧ ∃ a b, or a b ∈ (and l r).subformulas

theorem mem_subformulas_self (e : Formula α) : e ∈ e.subformulas := by
  cases e with
  | leaf a => exact List.mem_singleton_self _
  | and l r => exact List.mem_cons_self
  | or l r => exact List.mem_cons_self

theorem OrFree.of_mem_subformulas (h : e.OrFree) (hf : f ∈ e.subformulas) : f.OrFree := by
  induction e with
  | leaf a =>
    obtain rfl := List.mem_singleton.1 hf
    exact h
  | and l r ihl ihr =>
    rcases List.mem_cons.1 hf with rfl | hf
    · exact h
    · exact (List.mem_append.1 hf).elim (ihl h.1) (ihr h.2)
  | or l r _ _ => exact h.elim

theorem orFree_iff : e.OrFree ↔ ∀ a b, or a b ∉ e.subformulas := by
  refine ⟨fun h a b hab => h.of_mem_subformulas hab, fun h => ?_⟩
  induction e with
  | leaf a => trivial
  | and l r ihl ihr =>
    exact ⟨ihl fun a b hab => h a b (List.mem_cons_of_mem _ (List.mem_append_left _ hab)),
      ihr fun a b hab => h a b (List.mem_cons_of_mem _ (List.mem_append_right _ hab))⟩
  | or l r _ _ => exact h l r (mem_subformulas_self _)

theorem not_orBelowAnd_and : ¬ (and l r).OrBelowAnd ↔ (and l r).OrFree := by
  constructor
  · intro h
    exact orFree_iff.2 fun a b hab => h ⟨l, r, mem_subformulas_self _, a, b, hab⟩
  · rintro h ⟨l', r', hand, a, b, hor⟩
    exact orFree_iff.1 (h.of_mem_subformulas hand) a b hor

theorem orBelowAnd_or : (or l r).OrBelowAnd ↔ l.OrBelowAnd ∨ r.OrBelowAnd := by
  have hmem : ∀ a b : Formula α, and a b ∈ (or l r).subformulas ↔
      and a b ∈ l.subformulas ∨ and a b ∈ r.subformulas := by
    intro a b
    simp [subformulas]
  simp only [OrBelowAnd, hmem, or_and_right, exists_or]

/-- **A formula is in disjunctive normal form if no disjunction stands below a conjunction.** -/
theorem isDnf_iff : e.IsDnf ↔ ¬ e.OrBelowAnd := by
  induction e with
  | leaf a =>
    refine iff_of_true trivial ?_
    rintro ⟨l, r, hand, -⟩
    cases List.mem_singleton.1 hand
  | and l r _ _ => exact not_orBelowAnd_and.symm
  | or l r ihl ihr => rw [IsDnf, ihl, ihr, orBelowAnd_or, not_or]

/-! ## Leaves do not matter -/

theorem map_distributeRight (key : α → β) (l r : Formula α) :
    (distributeRight l r).map key = distributeRight (l.map key) (r.map key) := by
  induction r with
  | leaf a => rfl
  | and a b _ _ => rfl
  | or a b iha ihb => rw [distributeRight, map, iha, ihb, map, distributeRight]

theorem map_distribute (key : α → β) (l r : Formula α) :
    (distribute l r).map key = distribute (l.map key) (r.map key) := by
  induction l with
  | leaf a => exact map_distributeRight key (leaf a) r
  | and a b _ _ => exact map_distributeRight key (and a b) r
  | or a b iha ihb => rw [distribute, map, iha, ihb, map, distribute]

/-- **The conversion changes the tree only**, whatever its leaves are. -/
theorem toDnf_map (key : α → β) (e : Formula α) : (e.map key).toDnf = e.toDnf.map key := by
  induction e with
  | leaf a => rfl
  | and l r ihl ihr => rw [map, toDnf, ihl, ihr, toDnf, map_distribute]
  | or l r ihl ihr => rw [map, toDnf, ihl, ihr, toDnf, map]

theorem orFree_map (key : α → β) : (e.map key).OrFree ↔ e.OrFree := by
  induction e with
  | leaf a => exact Iff.rfl
  | and l r ihl ihr => exact and_congr ihl ihr
  | or l r _ _ => exact Iff.rfl

theorem isDnf_map (key : α → β) : (e.map key).IsDnf ↔ e.IsDnf := by
  induction e with
  | leaf a => exact Iff.rfl
  | and l r _ _ => exact and_congr (orFree_map key) (orFree_map key)
  | or l r ihl ihr => exact and_congr ihl ihr

/-! ## The formulas that are given -/

theorem toDnf_eq_self_iff : e.toDnf = e ↔ e.IsDnf :=
  ⟨fun h => h ▸ isDnf_toDnf e, IsDnf.toDnf_eq⟩

/-- **The alternatives of the normal form are the clauses**, one by one. -/
theorem map_leaves_alternatives_toDnf (e : Formula α) :
    e.toDnf.alternatives.map leaves = e.clauses := by
  rw [← (isDnf_toDnf e).clauses_eq_map, clauses_toDnf]

/-- **The conversion gives exactly the formulas without a disjunction below a conjunction.** What it
gives has this shape, and every formula of this shape is given. A formula stays as it is if and only if
it has the shape; it is enough to compare the trees with some part of each leaf, such as its number.
So a second conversion changes nothing. The alternatives at the top, which are found with a stack, are
as many as the clauses, and each has the leaves of its clause. -/
theorem toDnf_exact (e : Formula α) :
    ¬ e.toDnf.OrBelowAnd ∧
    ((∃ f : Formula α, f.toDnf = e) ↔ ¬ e.OrBelowAnd) ∧
    (e.toDnf = e ↔ ¬ e.OrBelowAnd) ∧
    (∀ (β : Type) (key : α → β), e.toDnf.map key = e.map key ↔ ¬ e.OrBelowAnd) ∧
    e.toDnf.toDnf = e.toDnf ∧
    (unstack [e.toDnf]).length = e.clauses.length ∧
    (unstack [e.toDnf]).map leaves = e.clauses := by
  have hstack : unstack [e.toDnf] = e.toDnf.alternatives := by
    rw [unstack_eq, List.flatMap_singleton]
  have hclauses := map_leaves_alternatives_toDnf e
  refine ⟨isDnf_iff.1 (isDnf_toDnf e), ?_, ?_, fun β key => ?_, (isDnf_toDnf e).toDnf_eq, ?_, ?_⟩
  · rw [← isDnf_iff]
    exact ⟨fun ⟨f, hf⟩ => hf ▸ isDnf_toDnf f, fun h => ⟨e, h.toDnf_eq⟩⟩
  · rw [toDnf_eq_self_iff, isDnf_iff]
  · rw [← toDnf_map, toDnf_eq_self_iff, isDnf_map, isDnf_iff]
  · rw [hstack, ← hclauses, List.length_map]
  · rw [hstack, hclauses]

end Formula

end PositiveLogic
