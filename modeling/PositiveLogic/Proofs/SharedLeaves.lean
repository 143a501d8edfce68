import PositiveLogic.Proofs.FactoredForm

/-!
# Factoring leaves nothing to factor

Factoring takes out at once all that the clauses of a list share, so the clauses that it leaves share
nothing any more: a factored formula is a normal form.

* `Clauses.IsShared cs ts`: the leaves `ts` are those that stand in every clause of `cs`, in the order
  of their first places. There is one such list, and `Clauses.shared` computes it.
* `Clauses.shared_front` and `Clauses.without_front`: where leaves stand in front of clauses that share
  nothing, these leaves and clauses are found again.
* `Clauses.factor_clauses_factor`: so a factored formula is what its own clauses are factored into.
* `Formula.minimize_normal_form`: what the factored form of a formula is, told from its clauses.
-/

namespace PositiveLogic

/-! ## First places -/

/-- **Without repetitions, elements stand in the order of their first places**, also if other elements
are filtered out. -/
theorem pairwise_idxOf_eraseDups {α : Type} [DecidableEq α] (f : α → Bool) (l : List α) :
    (l.filter f).eraseDups.Pairwise fun x y => l.idxOf x < l.idxOf y := by
  induction l using List.reverseRecOn with
  | nil => exact List.Pairwise.nil
  | append_singleton l a ih =>
    have hmem : ∀ x ∈ (l.filter f).eraseDups, x ∈ l := fun x hx =>
      List.mem_of_mem_filter (List.mem_eraseDups.1 hx)
    -- an element behind the others moves no first place
    have hkeep : (l.filter f).eraseDups.Pairwise fun x y =>
        (l ++ [a]).idxOf x < (l ++ [a]).idxOf y := by
      refine ih.imp_of_mem fun {x y} hx hy h => ?_
      rwa [List.idxOf_append_of_mem (hmem x hx), List.idxOf_append_of_mem (hmem y hy)]
    have hlast : (([a].filter f).removeAll (l.filter f)).eraseDups = [] ∨
        a ∉ l ∧ (([a].filter f).removeAll (l.filter f)).eraseDups = [a] := by
      by_cases hf : f a
      · by_cases ha : a ∈ l
        · exact .inl (by simp [List.removeAll, hf, ha])
        · exact .inr ⟨ha, by simp [List.removeAll, hf, ha, List.eraseDups_cons]⟩
      · exact .inl (by simp [hf])
    rw [List.filter_append, List.eraseDups_append]
    rcases hlast with hlast | ⟨ha, hlast⟩
    · rwa [hlast, List.append_nil]
    · rw [hlast]
      refine List.pairwise_append.2 ⟨hkeep, List.pairwise_singleton _ _, fun x hx y hy => ?_⟩
      obtain rfl := List.mem_singleton.1 hy
      rw [List.idxOf_append_of_mem (hmem x hx), List.idxOf_append_of_notMem ha]
      exact Nat.lt_add_right _ (List.idxOf_lt_length_iff.2 (hmem x hx))

theorem pairwise_idxOf_of_nodup {α : Type} [DecidableEq α] {l : List α} (h : l.Nodup) :
    l.Pairwise fun x y => l.idxOf x < l.idxOf y := by
  rw [List.pairwise_iff_getElem]
  intro i j hi hj hij
  rwa [h.idxOf_getElem, h.idxOf_getElem]

/-! ## Chains -/

/-- A chain of conjunctions, nested to the left, of the leaves of a list in their order. -/
inductive Formula.AndChain {α : Type} : List α → Formula α → Prop
  | leaf (a : α) : AndChain [a] (leaf a)
  | and {as : List α} {e : Formula α} (h : AndChain as e) (a : α) :
      AndChain (as ++ [a]) (and e (leaf a))

theorem Formula.andChain_ofClause {c : Clause Leaf} (h : c ≠ []) : AndChain c (ofClause c) := by
  cases c with
  | nil => exact absurd rfl h
  | cons t ts =>
    have hchain : ∀ (us c : Clause Leaf) (e : Formula Leaf), AndChain c e →
        AndChain (c ++ us) (us.foldl (fun e t => and e (leaf t)) e) := by
      intro us
      induction us with
      | nil => intro c e he; rwa [List.append_nil]
      | cons u us ih =>
        intro c e he
        rw [List.foldl_cons, List.append_cons]
        exact ih _ _ (he.and u)
    exact hchain ts [t] (leaf t) (.leaf t)

namespace Clauses

variable {cs rests : Clauses Leaf} {ts : List Leaf}

/-! ## What clauses share -/

/-- The leaves `ts` are those that stand in every clause of `cs`, in the order of their first places
in the first clause. -/
structure IsShared (cs : Clauses Leaf) (ts : List Leaf) : Prop where
  mem_iff : ∀ t, t ∈ ts ↔ ∀ c ∈ cs, t ∈ c
  ordered : ∀ c ∈ cs.head?, ts.Pairwise fun t u => c.idxOf t < c.idxOf u

theorem isShared_shared (h : cs ≠ []) : cs.IsShared cs.shared where
  mem_iff _ := mem_shared h
  ordered c hc := by
    cases cs with
    | nil => exact absurd rfl h
    | cons d cs =>
      obtain rfl : d = c := Option.some.inj hc
      exact pairwise_idxOf_eraseDups _ d

theorem IsShared.nodup (hts : cs.IsShared ts) (h : cs ≠ []) : ts.Nodup := by
  refine (hts.ordered _ (List.head?_eq_some_head h)).imp fun hlt heq => ?_
  rw [heq] at hlt
  exact Nat.lt_irrefl _ hlt

/-- **Clauses share one list of leaves**: which leaves these are fixes the order, too. -/
theorem IsShared.eq_shared (hts : cs.IsShared ts) (h : cs ≠ []) : cs.shared = ts := by
  have hshared := isShared_shared h
  have hperm : cs.shared.Perm ts :=
    (List.perm_ext_iff_of_nodup (hshared.nodup h) (hts.nodup h)).2 fun t => by
      rw [hshared.mem_iff, hts.mem_iff]
  have hhead := List.head?_eq_some_head h
  exact hperm.eq_of_pairwise (fun t u _ _ htu hut => absurd htu (Nat.lt_asymm hut))
    (hshared.ordered _ hhead) (hts.ordered _ hhead)

theorem nodup_shared (h : cs ≠ []) : cs.shared.Nodup :=
  (isShared_shared h).nodup h

/-! ## Leaves in front of clauses -/

/-- Different leaves in front of clauses that share nothing are what the longer clauses share. -/
theorem shared_front (hne : rests ≠ []) (hts : ts.Nodup) (hrests : ∀ t, ∃ c ∈ rests, t ∉ c) :
    (product [ts] rests).shared = ts := by
  rw [product_singleton_left]
  refine IsShared.eq_shared ⟨fun t => ⟨fun ht c hc => ?_, fun ht => ?_⟩, fun c hc => ?_⟩
    (List.map_eq_nil_iff.not.2 hne)
  · obtain ⟨rest, -, rfl⟩ := List.mem_map.1 hc
    exact List.mem_append_left rest ht
  · obtain ⟨rest, hrest, hnot⟩ := hrests t
    exact (List.mem_append.1 (ht _ (List.mem_map_of_mem hrest))).resolve_right hnot
  · obtain ⟨rest, -, rfl⟩ := List.mem_map.1 (List.mem_of_mem_head? hc)
    refine (pairwise_idxOf_of_nodup hts).imp_of_mem fun ht hu hlt => ?_
    rwa [List.idxOf_append_of_mem ht, List.idxOf_append_of_mem hu]

theorem without_front (hrests : ∀ c ∈ rests, ∀ t ∈ c, t ∉ ts) :
    (product [ts] rests).without ts = rests := by
  have hclause : ∀ c ∈ rests, (ts ++ c).filter (fun t => !ts.contains t) = c := by
    intro c hc
    have hfront : ts.filter (fun t => !ts.contains t) = [] := by simp
    have hrest : c.filter (fun t => !ts.contains t) = c := by simpa using hrests c hc
    rw [List.filter_append, hfront, hrest, List.nil_append]
  rw [product_singleton_left, without, List.map_map]
  exact (List.map_congr_left hclause).trans (List.map_id rests)

theorem not_mem_of_mem_without : ∀ c ∈ cs.without ts, ∀ t ∈ c, t ∉ ts := by
  intro c hc t ht
  obtain ⟨d, -, rfl⟩ := List.mem_map.1 hc
  simpa using List.of_mem_filter ht

/-- **What is left of clauses shares nothing.** -/
theorem exists_not_mem_without (h : cs ≠ []) (t : Leaf) : ∃ c ∈ cs.without cs.shared, t ∉ c := by
  by_cases ht : t ∈ cs.shared
  · obtain ⟨c, hc⟩ := List.exists_mem_of_ne_nil _ (without_ne_nil h cs.shared)
    exact ⟨c, hc, fun htc => not_mem_of_mem_without c hc t htc ht⟩
  · rw [mem_shared h] at ht
    push Not at ht
    obtain ⟨c, hc, htc⟩ := ht
    exact ⟨_, List.mem_map_of_mem hc, fun hmem => htc (List.mem_of_mem_filter hmem)⟩

theorem any_isEmpty_without : (cs.without ts).any List.isEmpty ↔ ∃ c ∈ cs, c ⊆ ts := by
  simp [without, List.subset_def]

/-! ## The clauses of a factored formula -/

theorem clauses_factor_of_absorbing (hs : cs.shared ≠ [])
    (h : (cs.without cs.shared).any List.isEmpty) :
    cs.factor.clauses = product [cs.shared] [[]] := by
  rw [factor_of_absorbing hs h, Formula.clauses_ofClause, Clause.orTruth_eq_self hs,
    product_singleton_left, List.map_singleton, List.append_nil]

theorem clauses_factor_of_shared_eq_nil (hgap : cs.hasGap = false) (hs : cs.shared = []) :
    cs.factor.clauses = cs := by
  rw [factor_of_shared_eq_nil hs, Formula.clauses_ofClauses, orTruth_eq_self hgap]

/-- Where no clause absorbs the others, the clauses stand behind the shared leaves. -/
theorem clauses_factor_of_not_absorbing (hgap : cs.hasGap = false)
    (h : ¬ (cs.without cs.shared).any List.isEmpty) :
    cs.factor.clauses = product [cs.shared] (cs.without cs.shared) := by
  by_cases hs : cs.shared = []
  · rw [clauses_factor_of_shared_eq_nil hgap hs, hs, product_singleton_left]
    simp [without]
  have hrest := hasGap_without (hasGap_eq_false_iff.1 hgap).1 h
  rw [factor_of_not_absorbing hs h, Formula.clauses, Formula.clauses_ofClause,
    Clause.orTruth_eq_self hs, Formula.clauses_ofClauses, orTruth_eq_self hrest]

/-- **Leaves in front of clauses are factored out again**, if the clauses share nothing and hold none
of these leaves. -/
theorem factor_front (hts : ts ≠ []) (hnodup : ts.Nodup) (hne : rests ≠ [])
    (hrests : ∀ t, ∃ c ∈ rests, t ∉ c) (hapart : ∀ c ∈ rests, ∀ t ∈ c, t ∉ ts) :
    (product [ts] rests).factor = if rests.any List.isEmpty then Formula.ofClause ts
      else .and (Formula.ofClause ts) (Formula.ofClauses rests) := by
  rw [factor, shared_front hne hnodup hrests, without_front hapart,
    List.isEmpty_eq_false_iff.2 hts, if_neg Bool.false_ne_true]

/-- **Factoring a factored formula changes nothing.** -/
theorem factor_clauses_factor (hgap : cs.hasGap = false) :
    cs.factor.clauses.factor = cs.factor := by
  have hne := (hasGap_eq_false_iff.1 hgap).1
  by_cases hs : cs.shared = []
  · rw [clauses_factor_of_shared_eq_nil hgap hs]
  by_cases habs : (cs.without cs.shared).any List.isEmpty
  · -- the shared leaves alone are one clause, and nothing stands behind them
    rw [clauses_factor_of_absorbing hs habs, factor_of_absorbing hs habs]
    exact factor_front hs (nodup_shared hne) (List.cons_ne_nil _ _)
      (fun t => ⟨[], List.mem_singleton_self _, List.not_mem_nil⟩) (by simp)
  · rw [clauses_factor_of_not_absorbing hgap habs, factor_of_not_absorbing hs habs,
      factor_front hs (nodup_shared hne) (without_ne_nil hne _) (exists_not_mem_without hne)
        not_mem_of_mem_without, if_neg habs]

/-! ## The number of leaves -/

/-- Taking different leaves of a clause out leaves fewer by as many at least. -/
theorem length_add_length_filter_le {c : Clause Leaf} (hts : ts.Nodup) (hsub : ts ⊆ c) :
    ts.length + (c.filter fun t => !ts.contains t).length ≤ c.length := by
  have hle : ts.length ≤ (c.filter fun t => ts.contains t).length := by
    refine hts.length_le_of_subset fun t ht => List.mem_filter.2 ⟨hsub ht, ?_⟩
    exact List.contains_iff_mem.2 ht
  rw [c.length_eq_length_filter_add fun t => ts.contains t]
  omega

theorem length_flatten_without_le (cs : Clauses Leaf) (ts : List Leaf) :
    (cs.without ts).flatten.length ≤ cs.flatten.length := by
  induction cs with
  | nil => exact Nat.le_refl 0
  | cons c cs ih =>
    have hle := List.length_filter_le (fun t => !ts.contains t) c
    simp only [without, List.map_cons, List.flatten_cons, List.length_append] at ih ⊢
    omega

/-- **The shared leaves, once, and what is left of the clauses** are no more leaves than before. -/
theorem length_shared_add_length_without_le (h : cs ≠ []) :
    cs.shared.length + (cs.without cs.shared).flatten.length ≤ cs.flatten.length := by
  cases cs with
  | nil => exact absurd rfl h
  | cons c cs =>
    have hsub : shared (c :: cs) ⊆ c := fun t ht =>
      (mem_shared h).1 ht c List.mem_cons_self
    have hfirst := length_add_length_filter_le (nodup_shared h) hsub
    have hrest := length_flatten_without_le cs (shared (c :: cs))
    simp only [without, List.map_cons, List.flatten_cons, List.length_append] at hrest ⊢
    omega

/-- **A factored formula has no more leaves than the clauses.** -/
theorem length_leaves_factor_le (hgap : cs.hasGap = false) :
    cs.factor.leaves.length ≤ cs.flatten.length := by
  have hne := (hasGap_eq_false_iff.1 hgap).1
  have hle := length_shared_add_length_without_le hne
  rcases cs.factor_cases with hf | ⟨hs, hf⟩ | ⟨hs, hrest, hf⟩
  · rw [hf, Formula.leaves_ofClauses, orTruth_eq_self hgap]
  · rw [hf, Formula.leaves_ofClause, Clause.orTruth_eq_self hs]
    omega
  · rw [hf, Formula.leaves, Formula.leaves_ofClause, Clause.orTruth_eq_self hs,
      Formula.leaves_ofClauses, orTruth_eq_self (hasGap_without hne hrest), List.length_append]
    exact hle

end Clauses

/-! ## The factored form of a formula -/

/-- The clause `d` is the clause `c` with the leaves `ts` in front: it has the same leaves, and those
that are not in front stand behind as they stood in `c`. -/
structure Clause.FactoredBy (ts c d : Clause Leaf) : Prop where
  same : ∀ t, t ∈ d ↔ t ∈ c
  front : ts <+: d
  rest : d.drop ts.length = c.filter fun t => t ∉ ts

/-- **Taking shared leaves out in front changes no clause** but for the order of its leaves and the
number of times that a shared one stands in it. -/
theorem Clauses.forall₂_factoredBy {cs : Clauses Leaf} {ts : List Leaf} (hts : ∀ c ∈ cs, ts ⊆ c) :
    List.Forall₂ (Clause.FactoredBy ts) cs (product [ts] (cs.without ts)) := by
  rw [product_singleton_left, without, List.map_map, List.forall₂_map_right_iff, List.forall₂_same]
  refine fun c hc => ⟨fun t => ?_, List.prefix_append _ _, ?_⟩
  · have hsub : t ∈ ts → t ∈ c := fun ht => hts c hc ht
    simp only [Function.comp_apply, List.mem_append, List.mem_filter, List.contains_eq_mem,
      Bool.not_eq_true', decide_eq_false_iff_not]
    tauto
  · simp only [Function.comp_apply, List.drop_left, List.contains_eq_mem, decide_not]

namespace Formula

/-- **The factored form of a formula is a normal form**: factoring it again changes nothing. It has
no more leaves than the clauses of the formula. These fix what it is: where all leaves of some clause
are shared, it is the chain of the shared leaves; else its clauses are those of the formula with the
shared leaves in front, and nothing behind them is shared any more. -/
theorem minimize_normal_form (e : Formula Leaf) :
    e.minimize.minimize = e.minimize ∧
    e.minimize.leaves.length ≤ e.toDnf.clauses.flatten.length ∧
    ∃ ts, e.toDnf.clauses.IsShared ts ∧ ts.Nodup ∧
      ((∃ c ∈ e.toDnf.clauses, c ⊆ ts) ∧ AndChain ts e.minimize ∨
        (¬ ∃ c ∈ e.toDnf.clauses, c ⊆ ts) ∧
        List.Forall₂ (Clause.FactoredBy ts) e.toDnf.clauses e.minimize.clauses ∧
        ∀ t, ∃ c ∈ e.minimize.clauses, t ∉ c.drop ts.length) := by
  have hne := e.clauses_ne_nil
  have hgap := e.hasGap_clauses
  have hshared := Clauses.isShared_shared hne
  rw [clauses_toDnf, minimize_eq, minimize_eq]
  refine ⟨Clauses.factor_clauses_factor hgap, Clauses.length_leaves_factor_le hgap,
    e.clauses.shared, hshared, hshared.nodup hne, ?_⟩
  rw [← Clauses.any_isEmpty_without]
  by_cases habs : (e.clauses.without e.clauses.shared).any List.isEmpty
  · obtain ⟨c, hc, hsub⟩ := Clauses.any_isEmpty_without.1 habs
    have hs : e.clauses.shared ≠ [] := by
      intro hnil
      rw [hnil, List.subset_nil] at hsub
      exact ne_nil_of_mem_clauses hc hsub
    refine .inl ⟨habs, ?_⟩
    rw [Clauses.factor_of_absorbing hs habs]
    exact andChain_ofClause hs
  · refine .inr ⟨habs, ?_⟩
    rw [Clauses.clauses_factor_of_not_absorbing hgap habs]
    refine ⟨Clauses.forall₂_factoredBy fun c hc t ht => (hshared.mem_iff t).1 ht c hc, fun t => ?_⟩
    obtain ⟨rest, hrest, ht⟩ := Clauses.exists_not_mem_without hne t
    rw [Clauses.product_singleton_left]
    exact ⟨_, List.mem_map_of_mem hrest, by rwa [List.drop_left]⟩

/-- A leaf that stands twice in a clause stands once in front. -/
example :
    let leafOf (i : Nat) (s : String) : Formula Leaf := leaf (.literal ⟨i, [], s, none⟩)
    let a := leafOf 1 "a"
    let b := leafOf 2 "b"
    let c := leafOf 3 "c"
    (or (and a (and b a)) (and c a)).minimize = and a (or b c) := by
  decide

end Formula

end PositiveLogic
