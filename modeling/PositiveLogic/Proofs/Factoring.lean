import PositiveLogic.Clause.Factoring
import PositiveLogic.Proofs.Meaning
import PositiveLogic.Proofs.NormalForm

/-!
# Factoring keeps the meaning

`Clauses.factor` takes the leaves that all clauses share out in front. A clause is true where its
shared leaves and the others are (`Clause.all_eq_shared_and_rest`), so this is distributivity read
backwards. Where a clause has shared leaves only, nothing of it is left, and it absorbs the others
(`factor_of_absorbing`): dropping it instead would demand one of the other clauses.
-/

namespace PositiveLogic

namespace Formula

/-! ## Rebuilt formulas -/

theorem value_ofClause (p : Leaf → Bool) (c : Clause Leaf) :
    (ofClause c).value p = c.all (Token.value p) := by
  cases c with
  | nil => rfl
  | cons t ts =>
    have hchain : ∀ (us : Clause Leaf) (e : Formula Leaf),
        (us.foldl (fun e t => and e (leaf t)) e).value p =
          (e.value p && us.all (Token.value p)) := by
      intro us
      induction us with
      | nil => intro e; simp
      | cons u us ih => intro e; rw [List.foldl_cons, ih, value, List.all_cons, Bool.and_assoc]; rfl
    exact hchain ts (leaf t)

theorem value_ofClauses (p : Leaf → Bool) {cs : Clauses Leaf} (h : cs ≠ []) :
    (ofClauses cs).value p = cs.value p := by
  cases cs with
  | nil => exact absurd rfl h
  | cons c cs =>
    have hchain : ∀ (ds : Clauses Leaf) (e : Formula Leaf),
        (ds.foldl (fun e c => or e (ofClause c)) e).value p = (e.value p || ds.value p) := by
      intro ds
      induction ds with
      | nil => intro e; simp [Clauses.value]
      | cons d ds ih =>
        intro e
        rw [List.foldl_cons, ih, value, value_ofClause, Bool.or_assoc]
        rfl
    rw [ofClauses, hchain, value_ofClause]
    rfl

end Formula

namespace Clauses

/-! ## Shared leaves -/

variable {cs : Clauses Leaf}

theorem mem_shared {t : Leaf} (h : cs ≠ []) : t ∈ cs.shared ↔ ∀ c ∈ cs, t ∈ c := by
  cases cs with
  | nil => exact absurd rfl h
  | cons c cs => simp [shared]

/-- A clause is true where the shared leaves and its other leaves are. -/
theorem all_eq_shared_and_rest (p : Leaf → Bool) {c : Clause Leaf} (hc : c ∈ cs) :
    c.all (Token.value p) = (cs.shared.all (Token.value p) &&
      (c.filter fun t => !cs.shared.contains t).all (Token.value p)) := by
  have hshared : ∀ t ∈ cs.shared, t ∈ c := fun t ht =>
    (mem_shared (List.ne_nil_of_mem hc)).1 ht c hc
  rw [Bool.eq_iff_iff]
  simp only [Bool.and_eq_true, List.all_eq_true, List.mem_filter, Bool.not_eq_true',
    List.contains_eq_mem, decide_eq_false_iff_not]
  constructor
  · intro h
    exact ⟨fun t ht => h t (hshared t ht), fun t ht => h t ht.1⟩
  · rintro ⟨hs, hrest⟩ t ht
    by_cases hmem : t ∈ cs.shared
    · exact hs t hmem
    · exact hrest t ⟨ht, hmem⟩

/-- **Distributivity backwards**: clauses are true where the shared leaves are true and the clauses
without them are. -/
theorem value_eq_shared_and_without (p : Leaf → Bool) (cs : Clauses Leaf) :
    cs.value p = (cs.shared.all (Token.value p) && (cs.without cs.shared).value p) := by
  have hclause : ∀ c ∈ cs, c.all (Token.value p) = (cs.shared.all (Token.value p) &&
      (c.filter fun t => !cs.shared.contains t).all (Token.value p)) :=
    fun c hc => all_eq_shared_and_rest p hc
  rw [Bool.eq_iff_iff]
  simp only [value, without, List.any_map, Bool.and_eq_true, List.any_eq_true, Function.comp]
  constructor
  · rintro ⟨c, hc, h⟩
    rw [hclause c hc, Bool.and_eq_true] at h
    exact ⟨h.1, c, hc, h.2⟩
  · rintro ⟨hs, c, hc, h⟩
    exact ⟨c, hc, by rw [hclause c hc, hs, h]; rfl⟩

/-! ## The factored formula -/

theorem factor_of_shared_eq_nil (hs : cs.shared = []) : cs.factor = Formula.ofClauses cs := by
  simp only [factor, hs, List.isEmpty_nil, if_true]

/-- A clause without leaves of its own absorbs the others. -/
theorem factor_of_absorbing (hs : cs.shared ≠ []) (h : (cs.without cs.shared).any List.isEmpty) :
    cs.factor = Formula.ofClause cs.shared := by
  simp only [factor, List.isEmpty_eq_false_iff.2 hs, h, if_true, Bool.false_eq_true, if_false]

/-- Otherwise the shared leaves stand in front of the clauses without them. -/
theorem factor_of_not_absorbing (hs : cs.shared ≠ [])
    (h : ¬ (cs.without cs.shared).any List.isEmpty) : cs.factor =
      .and (Formula.ofClause cs.shared) (Formula.ofClauses (cs.without cs.shared)) := by
  simp only [factor, List.isEmpty_eq_false_iff.2 hs, h, Bool.false_eq_true, if_false]

/-- **Factoring keeps the value** of a list of clauses, unless it is empty. -/
theorem value_factor (p : Leaf → Bool) (h : cs ≠ []) : cs.factor.value p = cs.value p := by
  by_cases hs : cs.shared = []
  · rw [factor_of_shared_eq_nil hs, Formula.value_ofClauses p h]
  rw [value_eq_shared_and_without p cs]
  by_cases habs : (cs.without cs.shared).any List.isEmpty
  · -- the emptied clause is true by itself
    obtain ⟨c, hc, hempty⟩ := List.any_eq_true.1 habs
    obtain rfl := List.isEmpty_iff.1 hempty
    have htrue : (cs.without cs.shared).value p = true := List.any_eq_true.2 ⟨[], hc, rfl⟩
    rw [factor_of_absorbing hs habs, Formula.value_ofClause, htrue, Bool.and_true]
  · have hne : cs.without cs.shared ≠ [] := fun hnil => h (List.map_eq_nil_iff.1 hnil)
    rw [factor_of_not_absorbing hs habs, Formula.value, Formula.value_ofClause,
      Formula.value_ofClauses p hne]

end Clauses

namespace Formula

/-- **Factoring a formula keeps its meaning**: `minimize` is satisfied by the same predicates, also
where a clause of shared leaves absorbs all others. -/
theorem satisfied_minimize (p : Leaf → Bool) (e : Formula Leaf) :
    e.minimize.satisfied p = e.satisfied p := by
  rw [satisfied_eq, satisfied_eq, minimize, Clauses.value_factor p (clauses_ne_nil _),
    value_clauses, value_toDnf]

end Formula

end PositiveLogic
