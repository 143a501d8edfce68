import Mathlib.Data.List.Nodup
import PositiveLogic.Proofs.Factoring
import PositiveLogic.Proofs.Rebuilding

/-!
# The form of factored formulas

A factored formula is no larger than the clauses it stands for.

* `Formula.leaves_minimize_subset`: its leaves are leaves of the formula it comes from.
* `Formula.length_clauses_minimize_le`: it has no more clauses.
* `Clauses.nesting_factor_le`: one level of groups is enough to print it, the group of the clauses
  behind their shared leaves. `Clauses.nesting_factor_eq_zero`: none is needed where all leaves
  differ, because then no two clauses share one, and a single clause shares all it has.
-/

namespace PositiveLogic

namespace Clauses

variable {cs : Clauses Leaf}

/-! ## The three forms -/

/-- **What factoring gives**: the clauses as they are, the shared leaves alone, or the shared leaves
in front of clauses of which none is empty. -/
theorem factor_cases (cs : Clauses Leaf) :
    cs.factor = Formula.ofClauses cs ∨
    (cs.shared ≠ [] ∧ cs.factor = Formula.ofClause cs.shared) ∨
    (cs.shared ≠ [] ∧ ¬ (cs.without cs.shared).any List.isEmpty ∧ cs.factor =
      .and (Formula.ofClause cs.shared) (Formula.ofClauses (cs.without cs.shared))) := by
  by_cases hs : cs.shared = []
  · exact .inl (factor_of_shared_eq_nil hs)
  by_cases habs : (cs.without cs.shared).any List.isEmpty
  · exact .inr (.inl ⟨hs, factor_of_absorbing hs habs⟩)
  · exact .inr (.inr ⟨hs, habs, factor_of_not_absorbing hs habs⟩)

theorem without_ne_nil (h : cs ≠ []) (ts : List Leaf) : cs.without ts ≠ [] :=
  fun hnil => h (List.map_eq_nil_iff.1 hnil)

theorem hasGap_without (h : cs ≠ []) {ts : List Leaf} (hrest : ¬ (cs.without ts).any List.isEmpty) :
    (cs.without ts).hasGap = false := by
  rw [hasGap, List.isEmpty_eq_false_iff.2 (without_ne_nil h ts), Bool.false_or]
  exact Bool.eq_false_iff.2 hrest

theorem length_without (cs : Clauses Leaf) (ts : List Leaf) : (cs.without ts).length = cs.length :=
  List.length_map _

/-! ## Leaves and clauses -/

theorem mem_flatten_of_mem_factor (hgap : cs.hasGap = false) {t : Leaf}
    (ht : t ∈ cs.factor.leaves) : t ∈ cs.flatten := by
  have h := (hasGap_eq_false_iff.1 hgap).1
  have hshared : ∀ t ∈ cs.shared, t ∈ cs.flatten := by
    intro t ht
    obtain ⟨c, hc⟩ := List.exists_mem_of_ne_nil cs h
    exact List.mem_flatten.2 ⟨c, hc, (mem_shared h).1 ht c hc⟩
  rcases cs.factor_cases with hf | ⟨hs, hf⟩ | ⟨hs, hrest, hf⟩
  · rwa [hf, Formula.leaves_ofClauses, orTruth_eq_self hgap] at ht
  · rw [hf, Formula.leaves_ofClause, Clause.orTruth_eq_self hs] at ht
    exact hshared t ht
  · rw [hf, Formula.leaves, Formula.leaves_ofClause, Clause.orTruth_eq_self hs,
      Formula.leaves_ofClauses, orTruth_eq_self (hasGap_without h hrest)] at ht
    rcases List.mem_append.1 ht with ht | ht
    · exact hshared t ht
    · obtain ⟨rest, hmem, ht⟩ := List.mem_flatten.1 ht
      obtain ⟨c, hc, rfl⟩ := List.mem_map.1 hmem
      exact List.mem_flatten.2 ⟨c, hc, List.mem_of_mem_filter ht⟩

theorem length_clauses_factor_le (h : cs ≠ []) : cs.factor.clauses.length ≤ cs.length := by
  have hlength : ∀ {ds : Clauses Leaf}, ds ≠ [] → ds.orTruth.length = ds.length := by
    intro ds hds
    rw [orTruth_of_ne_nil hds, List.length_map]
  rcases cs.factor_cases with hf | ⟨-, hf⟩ | ⟨-, -, hf⟩
  · rw [hf, Formula.clauses_ofClauses, hlength h]
  · rw [hf, Formula.clauses_ofClause]
    exact List.length_pos_iff.2 h
  · rw [hf, Formula.clauses, length_product, Formula.clauses_ofClause, Formula.clauses_ofClauses,
      hlength (without_ne_nil h _), length_without, List.length_singleton, Nat.one_mul]

/-! ## Groups -/

/-- **One level of groups is enough** for a factored formula. -/
theorem nesting_factor_le (cs : Clauses Leaf) : Token.nesting cs.factor.toTokens ≤ 1 := by
  rcases cs.factor_cases with hf | ⟨-, hf⟩ | ⟨-, -, hf⟩
  · rw [hf, Formula.nesting_ofClauses]
    exact Nat.zero_le 1
  · rw [hf, Formula.toTokens, Formula.nesting_ofClause _ rfl]
    exact Nat.zero_le 1
  · have hrest := (Formula.ofClauses (cs.without cs.shared)).nesting_toTokensAt_le_succ .andRight
    rw [← Formula.toTokens, Formula.nesting_ofClauses] at hrest
    rw [hf, Formula.toTokens, Formula.nesting_toTokensAt_and rfl, Formula.nesting_ofClause _ rfl]
    exact Nat.max_le.2 ⟨Nat.zero_le 1, hrest⟩

/-- Among clauses with different leaves only a single one has shared leaves. -/
theorem exists_singleton_of_nodup (h : cs ≠ []) (hnodup : cs.flatten.Nodup) (hs : cs.shared ≠ []) :
    ∃ c, cs = [c] := by
  obtain ⟨t, ht⟩ := List.exists_mem_of_ne_nil _ hs
  have hall := (mem_shared h).1 ht
  match cs, h with
  | [c], _ => exact ⟨c, rfl⟩
  | c :: c' :: cs, _ =>
    have hdisjoint := List.rel_of_pairwise_cons (List.nodup_flatten.1 hnodup).2
      (List.mem_cons_self : c' ∈ c' :: cs)
    exact absurd (hall c' (by simp)) (hdisjoint (hall c (by simp)))

theorem without_shared_singleton (c : Clause Leaf) : without [c] (shared [c]) = [[]] := by
  have hshared : ∀ t ∈ c, t ∈ shared [c] := fun t ht =>
    (mem_shared (List.cons_ne_nil c [])).2 (List.forall_mem_singleton.2 ht)
  rw [without, List.map_singleton, List.filter_eq_nil_iff.2]
  intro t ht
  simp [hshared t ht]

/-- **No group is needed where all leaves differ.** -/
theorem nesting_factor_eq_zero (h : cs ≠ []) (hnodup : cs.flatten.Nodup) :
    Token.nesting cs.factor.toTokens = 0 := by
  rcases cs.factor_cases with hf | ⟨-, hf⟩ | ⟨hs, hrest, -⟩
  · rw [hf, Formula.nesting_ofClauses]
  · rw [hf, Formula.toTokens, Formula.nesting_ofClause _ rfl]
  · obtain ⟨c, rfl⟩ := exists_singleton_of_nodup h hnodup hs
    rw [without_shared_singleton] at hrest
    exact absurd rfl hrest

end Clauses

namespace Formula

variable {e : Formula Leaf}

theorem minimize_eq (e : Formula Leaf) : e.minimize = e.clauses.factor := by
  rw [minimize, clauses_toDnf]

theorem leaves_minimize_subset (e : Formula Leaf) : e.minimize.leaves ⊆ e.leaves := by
  intro t ht
  rw [minimize_eq] at ht
  exact mem_flatten_clauses.1 (Clauses.mem_flatten_of_mem_factor e.hasGap_clauses ht)

theorem length_clauses_minimize_le (e : Formula Leaf) :
    e.minimize.clauses.length ≤ e.clauses.length := by
  rw [minimize_eq]
  exact Clauses.length_clauses_factor_le e.clauses_ne_nil

theorem value_minimize (p : Leaf → Bool) (e : Formula Leaf) : e.minimize.value p = e.value p := by
  rw [minimize_eq, Clauses.value_factor p e.clauses_ne_nil, value_clauses]

end Formula

end PositiveLogic
