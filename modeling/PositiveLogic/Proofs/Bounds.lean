import PositiveLogic.Proofs.Factoring
import PositiveLogic.Proofs.NormalForm

/-!
# Bounds on the number of clauses

The bounded conversions look at the number of clauses twice: `Formula.count` computes it in advance,
and `Formula.expand` compares every list that it builds with the limit. Both are cut off exactly
where the formula has more clauses than allowed.

* `Formula.count_eq`: the count is the number of clauses, cut off at the ceiling, if this is within
  the limit. No subformula has more clauses than the whole, so stopping early refuses nothing else.
* `Formula.expand_eq`: the expansion gives the clauses, if they are not too many.
* `Formula.expansion_paths_agree`: the bounded conversions, which do without the disjunctive normal
  form, work on its clauses all the same.
* `Formula.bounded_exact`: the bounded conversions are the unbounded ones up to the limit, and
  refuse every formula above it.
-/

namespace PositiveLogic

/-! ## Values within a limit -/

/-- A value whose size stays within a limit. -/
def sizeWithin {γ : Type} (size : γ → Nat) (limit : Nat) (x : γ) : Except TooManyClauses γ :=
  if limit < size x then .error ⟨limit⟩ else .ok x

section

variable {γ : Type} (size : γ → Nat) {limit : Nat} {x y z : γ}

theorem sizeWithin_of_le (h : size x ≤ limit) : sizeWithin size limit x = .ok x :=
  if_neg (Nat.not_lt.2 h)

theorem sizeWithin_of_lt (h : limit < size x) : sizeWithin size limit x = .error ⟨limit⟩ :=
  if_pos h

/-- **Early checks refuse nothing else**: two values that are no larger than what they are joined to
can be checked before. -/
theorem sizeWithin_join {join : γ → γ → Except TooManyClauses γ} (hx : size x ≤ size z)
    (hy : size y ≤ size z) (hjoin : join x y = sizeWithin size limit z) :
    (do let x ← sizeWithin size limit x
        let y ← sizeWithin size limit y
        join x y) = sizeWithin size limit z := by
  by_cases hlx : limit < size x
  · rw [sizeWithin_of_lt size hlx, sizeWithin_of_lt size (Nat.lt_of_lt_of_le hlx hx)]
    rfl
  rw [sizeWithin_of_le size (Nat.not_lt.1 hlx)]
  by_cases hly : limit < size y
  · rw [sizeWithin_of_lt size hly, sizeWithin_of_lt size (Nat.lt_of_lt_of_le hly hy)]
    rfl
  · rw [sizeWithin_of_le size (Nat.not_lt.1 hly), ← hjoin]
    rfl

end

namespace Formula

variable {α : Type} {e f l r : Formula α} {limit : Nat}

theorem countWithin_eq (limit n : Nat) : countWithin limit n = sizeWithin id limit n := rfl

theorem clausesWithin_eq (limit : Nat) (cs : Clauses α) :
    clausesWithin limit cs = sizeWithin List.length limit cs := rfl

/-! ## Numbers of clauses -/

theorem length_clauses_pos (e : Formula α) : 0 < e.clauses.length :=
  List.length_pos_iff.2 e.clauses_ne_nil

theorem length_clauses_and (l r : Formula α) :
    (and l r).clauses.length = l.clauses.length * r.clauses.length :=
  Clauses.length_product _ _

theorem length_clauses_or (l r : Formula α) :
    (or l r).clauses.length = l.clauses.length + r.clauses.length :=
  List.length_append

theorem length_clauses_le_and (l r : Formula α) :
    l.clauses.length ≤ (and l r).clauses.length ∧ r.clauses.length ≤ (and l r).clauses.length := by
  rw [length_clauses_and]
  exact ⟨Nat.le_mul_of_pos_right _ r.length_clauses_pos,
    Nat.le_mul_of_pos_left _ l.length_clauses_pos⟩

theorem length_clauses_le_or (l r : Formula α) :
    l.clauses.length ≤ (or l r).clauses.length ∧ r.clauses.length ≤ (or l r).clauses.length := by
  rw [length_clauses_or]
  exact ⟨Nat.le_add_right _ _, Nat.le_add_left _ _⟩

theorem countProduct_min {m n : Nat} (hm : 0 < m) (hn : 0 < n) :
    countProduct (min m countCeiling) (min n countCeiling) = min (m * n) countCeiling := by
  have hceiling : 0 < countCeiling := by decide
  unfold countProduct
  rcases Nat.le_total m countCeiling with h | h
  · rcases Nat.le_total n countCeiling with h' | h'
    · rw [Nat.min_eq_left h, Nat.min_eq_left h']
    · rw [Nat.min_eq_left h, Nat.min_eq_right h',
        Nat.min_eq_right (Nat.le_mul_of_pos_left _ hm),
        Nat.min_eq_right (Nat.le_trans h' (Nat.le_mul_of_pos_left _ hm))]
  · have hpos : 0 < min n countCeiling := Nat.lt_min.2 ⟨hn, hceiling⟩
    rw [Nat.min_eq_right h, Nat.min_eq_right (Nat.le_mul_of_pos_right _ hpos),
      Nat.min_eq_right (Nat.le_trans h (Nat.le_mul_of_pos_right _ hn))]

theorem countSum_min (m n : Nat) :
    countSum (min m countCeiling) (min n countCeiling) = min (m + n) countCeiling := by
  unfold countSum
  omega

/-! ## Counting and expanding -/

/-- **The count is the number of clauses**, cut off at the ceiling, if it is within the limit. -/
theorem count_eq (limit : Nat) (e : Formula α) :
    e.count limit = countWithin limit (min e.clauses.length countCeiling) := by
  have hmono : ∀ {m n : Nat}, m ≤ n → min m countCeiling ≤ min n countCeiling := by
    intro m n h
    omega
  induction e with
  | leaf a => rfl
  | and l r ihl ihr =>
    obtain ⟨hl, hr⟩ := length_clauses_le_and l r
    rw [count, ihl, ihr]
    refine sizeWithin_join id (hmono hl) (hmono hr) ?_
    rw [countProduct_min l.length_clauses_pos r.length_clauses_pos, length_clauses_and]
    rfl
  | or l r ihl ihr =>
    obtain ⟨hl, hr⟩ := length_clauses_le_or l r
    rw [count, ihl, ihr]
    refine sizeWithin_join id (hmono hl) (hmono hr) ?_
    rw [countSum_min, length_clauses_or]
    rfl

/-- **The expansion gives the clauses**, if they are not too many. -/
theorem expand_eq (limit : Nat) (e : Formula α) :
    e.expand limit = clausesWithin limit e.clauses := by
  induction e with
  | leaf a => rfl
  | and l r ihl ihr =>
    obtain ⟨hl, hr⟩ := length_clauses_le_and l r
    rw [expand, ihl, ihr]
    refine sizeWithin_join List.length hl hr ?_
    split
    · next h =>
      -- the check in front of the product refuses what the check behind it would
      have hlt : limit < (and l r).clauses.length := by
        rw [length_clauses_and]
        exact Nat.lt_of_lt_of_le h (Nat.min_le_left _ _)
      exact (sizeWithin_of_lt List.length hlt).symm
    · rfl
  | or l r ihl ihr =>
    obtain ⟨hl, hr⟩ := length_clauses_le_or l r
    rw [expand, ihl, ihr]
    exact sizeWithin_join List.length hl hr rfl

/-- **The bounded list of clauses** is the list of clauses, if they are not too many. -/
theorem clausesBounded_eq (limits : Limits) (e : Formula α) :
    e.clausesBounded limits = clausesWithin limits.maxClauses e.clauses := by
  rw [clausesBounded, count_eq, expand_eq, countWithin_eq, clausesWithin_eq]
  by_cases h : limits.maxClauses < min e.clauses.length countCeiling
  · have hlt := Nat.lt_of_lt_of_le h (Nat.min_le_left _ _)
    rw [sizeWithin_of_lt id h, sizeWithin_of_lt List.length hlt]
    rfl
  · rw [sizeWithin_of_le id (Nat.not_lt.1 h)]
    rfl

theorem clausesBounded_eq_ok_iff {limits : Limits} {cs : Clauses α} :
    e.clausesBounded limits = .ok cs ↔ e.clauses.length ≤ limits.maxClauses ∧ cs = e.clauses := by
  rw [clausesBounded_eq, clausesWithin]
  split
  · next h => simp [Nat.not_le.2 h]
  · next h => simp [Nat.not_lt.1 h, eq_comm]

theorem minimizeBounded_eq (limits : Limits) (e : Formula Leaf) :
    e.minimizeBounded limits =
      (clausesWithin limits.maxClauses e.toDnf.clauses).map Clauses.factor := by
  rw [minimizeBounded, clausesBounded_eq, clauses_toDnf]
  cases clausesWithin limits.maxClauses e.clauses <;> rfl

theorem minimizeBounded_eq_ok_iff {limits : Limits} {e f : Formula Leaf} :
    e.minimizeBounded limits = .ok f ↔
      e.clauses.length ≤ limits.maxClauses ∧ f = e.minimize := by
  rw [minimizeBounded_eq, minimize, clauses_toDnf, clausesWithin]
  split
  · next h => simp [Except.map, Nat.not_le.2 h]
  · next h => simp [Except.map, Nat.not_lt.1 h, eq_comm]

/-- **Both ways to the clauses give the same list**: the clauses of the disjunctive normal form and
those listed at once are equal as lists of lists. So the bounded conversions, which list the clauses
at once, work on the list of the unbounded ones. -/
theorem expansion_paths_agree (limits : Limits) (e : Formula Leaf) :
    e.toDnf.clauses = e.clauses ∧
    e.clausesBounded limits = clausesWithin limits.maxClauses e.toDnf.clauses ∧
    e.minimizeBounded limits =
      (clausesWithin limits.maxClauses e.toDnf.clauses).map Clauses.factor ∧
    e.minimize = e.clauses.factor := by
  refine ⟨e.clauses_toDnf, ?_, e.minimizeBounded_eq limits, ?_⟩
  · rw [clausesBounded_eq, clauses_toDnf]
  · rw [minimize, clauses_toDnf]

/-! ## The cut-off -/

/-- All subformulas of a formula, itself included. -/
def subformulas : Formula α → List (Formula α)
  | leaf a => [leaf a]
  | and l r => and l r :: (l.subformulas ++ r.subformulas)
  | or l r => or l r :: (l.subformulas ++ r.subformulas)

theorem length_clauses_le_of_mem_subformulas (h : f ∈ e.subformulas) :
    f.clauses.length ≤ e.clauses.length := by
  induction e with
  | leaf a =>
    obtain rfl := List.mem_singleton.1 h
    exact Nat.le_refl _
  | and l r ihl ihr =>
    obtain ⟨hl, hr⟩ := length_clauses_le_and l r
    rcases List.mem_cons.1 h with rfl | h
    · exact Nat.le_refl _
    rcases List.mem_append.1 h with h | h
    · exact Nat.le_trans (ihl h) hl
    · exact Nat.le_trans (ihr h) hr
  | or l r ihl ihr =>
    obtain ⟨hl, hr⟩ := length_clauses_le_or l r
    rcases List.mem_cons.1 h with rfl | h
    · exact Nat.le_refl _
    rcases List.mem_append.1 h with h | h
    · exact Nat.le_trans (ihl h) hl
    · exact Nat.le_trans (ihr h) hr

/-- Where a formula has not too many clauses, no check of its expansion fails. The expansion builds
one list for each subformula, and it is the list of its clauses. -/
theorem expand_of_mem_subformulas (h : e.clauses.length ≤ limit) (hf : f ∈ e.subformulas) :
    f.expand limit = .ok f.clauses ∧ f.clauses.length ≤ limit := by
  have hle := Nat.le_trans (length_clauses_le_of_mem_subformulas hf) h
  refine ⟨?_, hle⟩
  rw [expand_eq, clausesWithin_eq, sizeWithin_of_le List.length hle]

/-- Below the ceiling the count in advance decides like the number of clauses. -/
theorem count_eq_of_lt (h : limit < countCeiling) (e : Formula α) :
    e.count limit = countWithin limit e.clauses.length := by
  rw [count_eq, countWithin_eq, countWithin_eq]
  by_cases hle : e.clauses.length ≤ limit
  · rw [Nat.min_eq_left (Nat.le_trans hle (Nat.le_of_lt h))]
  · have hlt := Nat.not_le.1 hle
    rw [sizeWithin_of_lt id hlt, sizeWithin_of_lt id (Nat.lt_min.2 ⟨hlt, h⟩)]

theorem toDnfBounded_eq {limits : Limits} (h : limits.maxClauses < countCeiling) (e : Formula α) :
    e.toDnfBounded limits =
      (clausesWithin limits.maxClauses e.clauses).map fun _ => e.toDnf := by
  rw [toDnfBounded, count_eq_of_lt h, countWithin, clausesWithin]
  split <;> rfl

/-- **The bounded conversions are cut off exactly.** A formula with no more clauses than allowed is
converted as without a limit, and no list that its expansion builds on the way is longer than
allowed. A formula with more clauses is refused by all three conversions, already by the count in
advance. -/
theorem bounded_exact (e : Formula Leaf) (limits : Limits)
    (h : limits.maxClauses < countCeiling) :
    (e.clauses.length ≤ limits.maxClauses →
      e.toDnfBounded limits = .ok e.toDnf ∧
      e.clausesBounded limits = .ok e.clauses ∧
      e.minimizeBounded limits = .ok e.minimize ∧
      e.count limits.maxClauses = .ok e.clauses.length ∧
      ∀ f ∈ e.subformulas, f.expand limits.maxClauses = .ok f.clauses ∧
        f.clauses.length ≤ limits.maxClauses) ∧
    (limits.maxClauses < e.clauses.length →
      e.toDnfBounded limits = .error ⟨limits.maxClauses⟩ ∧
      e.clausesBounded limits = .error ⟨limits.maxClauses⟩ ∧
      e.minimizeBounded limits = .error ⟨limits.maxClauses⟩ ∧
      e.count limits.maxClauses = .error ⟨limits.maxClauses⟩) := by
  rw [toDnfBounded_eq h, clausesBounded_eq, minimizeBounded_eq, count_eq_of_lt h, minimize,
    clauses_toDnf, countWithin_eq, clausesWithin_eq]
  constructor
  · intro hle
    rw [sizeWithin_of_le List.length hle, sizeWithin_of_le id hle]
    exact ⟨rfl, rfl, rfl, rfl, fun f hf => expand_of_mem_subformulas hle hf⟩
  · intro hlt
    rw [sizeWithin_of_lt List.length hlt, sizeWithin_of_lt id hlt]
    exact ⟨rfl, rfl, rfl, rfl⟩

/-- A formula with four clauses, at the limit and one below it. -/
theorem bounded_exact_square : ∃ a : Formula Leaf, ∃ e, e = and (or a a) (or a a) ∧
    (e.toDnfBounded ⟨0, 4⟩ = .ok e.toDnf ∧ e.clausesBounded ⟨0, 4⟩ = .ok e.clauses ∧
      e.minimizeBounded ⟨0, 4⟩ = .ok e.minimize) ∧
    e.toDnfBounded ⟨0, 3⟩ = .error ⟨3⟩ ∧ e.clausesBounded ⟨0, 3⟩ = .error ⟨3⟩ ∧
      e.minimizeBounded ⟨0, 3⟩ = .error ⟨3⟩ := by
  let a : Formula Leaf := leaf (.literal ⟨1, [], "a", none⟩)
  obtain ⟨hdnf, hclauses, hminimize, -⟩ :=
    (bounded_exact (and (or a a) (or a a)) ⟨0, 4⟩ (by decide)).1 (by decide)
  obtain ⟨hdnf', hclauses', hminimize', -⟩ :=
    (bounded_exact (and (or a a) (or a a)) ⟨0, 3⟩ (by decide)).2 (by decide)
  exact ⟨a, _, rfl, ⟨hdnf, hclauses, hminimize⟩, hdnf', hclauses', hminimize'⟩

end Formula

end PositiveLogic
