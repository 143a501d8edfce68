import PositiveLogic.Proofs.NormalForm

/-!
# Clauses as choices

A clause of a formula arises by choosing an operand of each disjunction that is met on the way down and
keeping both operands of each conjunction. So it has leaves of the formula, in their order. Where a leaf
occurs more than once, the occurrences are told apart by their places.

* `Formula.Choice`: the clauses, said without lists of clauses (`Formula.mem_clauses_iff`).
* `Formula.indexFrom`: the formula with the place of each leaf beside it. The clauses of this formula
  are those of the original one with places (`Formula.map_fst_clauses_indexFrom`).
* `Formula.gather`: the leaves are found with a stack, from left to right (`Formula.gather_eq`).
* `Formula.clauses_cover_leaves`: the clauses consist of the leaves at their places, and no place is
  missing in all of them.
-/

namespace PositiveLogic

namespace Formula

variable {α : Type} {e : Formula α} {c : Clause α}

/-! ## Choices -/

/-- A clause that keeps both operands of a conjunction and one operand of a disjunction. -/
inductive Choice : Formula α → Clause α → Prop
  | leaf (a : α) : Choice (leaf a) [a]
  | both {l r : Formula α} {x y : Clause α} :
      Choice l x → Choice r y → Choice (and l r) (x ++ y)
  | left {l r : Formula α} {x : Clause α} : Choice l x → Choice (or l r) x
  | right {l r : Formula α} {y : Clause α} : Choice r y → Choice (or l r) y

/-- **The clauses are the choices.** -/
theorem mem_clauses_iff : c ∈ e.clauses ↔ Choice e c := by
  constructor
  · intro h
    induction e generalizing c with
    | leaf a =>
      obtain rfl := List.mem_singleton.1 h
      exact .leaf a
    | and l r ihl ihr =>
      obtain ⟨x, hx, y, hy, rfl⟩ := Clauses.mem_product.1 h
      exact (ihl hx).both (ihr hy)
    | or l r ihl ihr =>
      rcases List.mem_append.1 h with h | h
      · exact (ihl h).left
      · exact (ihr h).right
  · intro h
    induction h with
    | leaf a => exact List.mem_singleton_self [a]
    | both _ _ ihl ihr => exact Clauses.mem_product.2 ⟨_, ihl, _, ihr, rfl⟩
    | left _ ih => exact List.mem_append_left _ ih
    | right _ ih => exact List.mem_append_right _ ih

/-! ## Places -/

/-- The formula with the place of each leaf beside it, counted from `n` on. -/
def indexFrom (n : Nat) : Formula α → Formula (α × Nat)
  | leaf a => leaf (a, n)
  | and l r => and (l.indexFrom n) (r.indexFrom (n + l.leaves.length))
  | or l r => or (l.indexFrom n) (r.indexFrom (n + l.leaves.length))

theorem leaves_indexFrom (n : Nat) (e : Formula α) :
    (e.indexFrom n).leaves = e.leaves.zipIdx n := by
  induction e generalizing n with
  | leaf a => rfl
  | and l r ihl ihr => rw [indexFrom, leaves, ihl, ihr, leaves, List.zipIdx_append]
  | or l r ihl ihr => rw [indexFrom, leaves, ihl, ihr, leaves, List.zipIdx_append]

theorem map_fst_indexFrom (n : Nat) (e : Formula α) : (e.indexFrom n).map Prod.fst = e := by
  induction e generalizing n with
  | leaf a => rfl
  | and l r ihl ihr => rw [indexFrom, map, ihl, ihr]
  | or l r ihl ihr => rw [indexFrom, map, ihl, ihr]

/-- **The clauses with places are the clauses**, without the places. -/
theorem map_fst_clauses_indexFrom (n : Nat) (e : Formula α) :
    (e.indexFrom n).clauses.map (List.map Prod.fst) = e.clauses := by
  rw [← clauses_map, map_fst_indexFrom]

/-! ## Leaves from a stack -/

/-- The leaves of formulas on a stack: an operator is replaced by its operands, the left one on top,
and a leaf is taken off. -/
def gather : List (Formula α) → List α
  | [] => []
  | leaf a :: stack => a :: gather stack
  | and l r :: stack | or l r :: stack => gather (l :: r :: stack)
termination_by stack => stack.foldr (fun e n => sizeOf e + n) 0
decreasing_by
  · simp only [List.foldr_cons, leaf.sizeOf_spec]
    omega
  · simp only [List.foldr_cons, and.sizeOf_spec]
    omega
  · simp only [List.foldr_cons, or.sizeOf_spec]
    omega

/-- **A stack gives the leaves of its formulas**, from its top on. -/
theorem gather_eq (stack : List (Formula α)) : gather stack = stack.flatMap leaves := by
  fun_induction gather stack with
  | case1 => rfl
  | case2 a stack ih => rw [ih, List.flatMap_cons, leaves, List.singleton_append]
  | case3 l r stack ih => simp only [ih, List.flatMap_cons, leaves, List.append_assoc]
  | case4 l r stack ih => simp only [ih, List.flatMap_cons, leaves, List.append_assoc]

/-! ## What the clauses consist of -/

theorem exists_mem_clauses {t : α} (h : t ∈ e.leaves) : ∃ c ∈ e.clauses, t ∈ c :=
  List.mem_flatten.1 (mem_flatten_clauses.2 h)

/-- **The clauses consist of the leaves, in order, and cover them.** There is a clause, none is empty,
and each is a sublist of the leaves, which a stack gives from left to right; every leaf is in some
clause, and the clauses are the choices of the formula. The same is true of the occurrences of leaves:
the clauses can be marked with places, so that each one has leaves at increasing places and every place
is in some clause. -/
theorem clauses_cover_leaves (e : Formula α) :
    e.clauses ≠ [] ∧
    (∀ c ∈ e.clauses, c ≠ [] ∧ c.Sublist (gather [e])) ∧
    (∀ t ∈ gather [e], ∃ c ∈ e.clauses, t ∈ c) ∧
    (∀ c, c ∈ e.clauses ↔ Choice e c) ∧
    gather [e] = e.leaves ∧
    ∃ marked : Clauses (α × Nat), marked.map (List.map Prod.fst) = e.clauses ∧
      (∀ c ∈ marked, c.Sublist e.leaves.zipIdx) ∧
      ∀ x ∈ e.leaves.zipIdx, ∃ c ∈ marked, x ∈ c := by
  have hgather : gather [e] = e.leaves := by rw [gather_eq, List.flatMap_singleton]
  have hleaves := leaves_indexFrom 0 e
  rw [hgather]
  refine ⟨e.clauses_ne_nil, fun c hc => ⟨ne_nil_of_mem_clauses hc, sublist_leaves_of_mem_clauses hc⟩,
    fun t ht => exists_mem_clauses ht, fun c => mem_clauses_iff, rfl, (e.indexFrom 0).clauses,
    map_fst_clauses_indexFrom 0 e, fun c hc => ?_, fun x hx => ?_⟩
  · rw [← hleaves]
    exact sublist_leaves_of_mem_clauses hc
  · rw [← hleaves] at hx
    exact exists_mem_clauses hx

/-- A leaf that occurs on both sides of a conjunction is at two places. -/
theorem clauses_cover_leaves_repeated : ∃ e : Formula Char,
    e = and (or (leaf 'a') (leaf 'b')) (or (leaf 'c') (leaf 'a')) ∧
    e.clauses = [['a', 'c'], ['a', 'a'], ['b', 'c'], ['b', 'a']] ∧
    ['b', 'a'] ≠ [] ∧ ['b', 'a'].Sublist (gather [e]) ∧ (∃ c ∈ e.clauses, 'b' ∈ c) ∧
    gather [e] = ['a', 'b', 'c', 'a'] ∧
    ∃ marked : Clauses (Char × Nat), marked.map (List.map Prod.fst) = e.clauses ∧
      (∃ c ∈ marked, ('a', 0) ∈ c) ∧ ∃ c ∈ marked, ('a', 3) ∈ c := by
  let e : Formula Char := and (or (leaf 'a') (leaf 'b')) (or (leaf 'c') (leaf 'a'))
  have hclauses : e.clauses = [['a', 'c'], ['a', 'a'], ['b', 'c'], ['b', 'a']] := rfl
  have hleaves : e.leaves = ['a', 'b', 'c', 'a'] := rfl
  obtain ⟨-, hclause, hleaf, -, hgather, marked, hmap, -, hplace⟩ := clauses_cover_leaves e
  obtain ⟨hne, hsublist⟩ := hclause ['b', 'a'] (by simp [hclauses])
  rw [hgather] at hleaf
  refine ⟨e, rfl, hclauses, hne, hsublist, hleaf 'b' (by simp [hleaves]), hgather, marked, hmap,
    hplace _ ?_, hplace _ ?_⟩
  · simp [hleaves]
  · simp [hleaves]

end Formula

end PositiveLogic
