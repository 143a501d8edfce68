import PositiveLogic.Proofs.LocalInjection

/-!
# Substitution and injection

A formula can be put in the place of a leaf before the clauses are listed, by `Formula.subst`, or
afterwards, by an injection. A conjunction copies the clauses of one side for every clause of the other
one, and an injection changes one of the copies only, so the two differ in general. They agree where
there is one copy.

* `Formula.count_flatten_product`: how often a leaf stands in a product.
* `Clauses.Exchanges t rs cs ds`: the list `ds` has the clauses `rs` in the place where `cs` has the
  leaf `t`. It is kept by what is put in front of the clauses, behind them, and around them.
* `Formula.exchanges_subst`: so the clauses of a formula and those after a substitution are in this
  relation, if the leaf stands in the clauses once.
* `Formula.injection_commutes`: there injection and substitution commute.
-/

namespace PositiveLogic

namespace Formula

variable {α : Type} [DecidableEq α]

/-- The formula with `r` in the place of every leaf `t`. -/
def subst : Formula α → α → Formula α → Formula α
  | leaf a, t, r => if a = t then r else leaf a
  | and l r', t, r => and (l.subst t r) (r'.subst t r)
  | or l r', t, r => or (l.subst t r) (r'.subst t r)

theorem subst_of_not_mem {e : Formula α} {t : α} (h : t ∉ e.leaves) (r : Formula α) :
    e.subst t r = e := by
  induction e with
  | leaf a =>
    have hne : a ≠ t := fun heq => h (heq ▸ List.mem_singleton_self a)
    rw [subst, if_neg hne]
  | and l r' ihl ihr =>
    rw [leaves, List.mem_append, not_or] at h
    rw [subst, ihl h.1, ihr h.2]
  | or l r' ihl ihr =>
    rw [leaves, List.mem_append, not_or] at h
    rw [subst, ihl h.1, ihr h.2]

end Formula

namespace Clauses

section Exchange

variable {α : Type} {t : α} {rs cs ds : Clauses α}

theorem count_flatten_map_append [DecidableEq α] (c : Clause α) (cs : Clauses α) (t : α) :
    (cs.map fun d => c ++ d).flatten.count t = cs.length * c.count t + cs.flatten.count t := by
  induction cs with
  | nil => simp
  | cons d cs ih =>
    simp only [List.map_cons, List.flatten_cons, List.count_append, List.length_cons, ih,
      Nat.succ_mul]
    omega

/-- **How often a leaf stands in a product**: as often as in each side, for each clause of the
other. -/
theorem count_flatten_product [DecidableEq α] (ls rs : Clauses α) (t : α) :
    (product ls rs).flatten.count t =
      ls.flatten.count t * rs.length + ls.length * rs.flatten.count t := by
  induction ls with
  | nil => simp [product]
  | cons l ls ih =>
    have hcons : product (l :: ls) rs = (rs.map fun r => l ++ r) ++ product ls rs := rfl
    rw [hcons, List.flatten_append, List.count_append, count_flatten_map_append, ih]
    simp only [List.flatten_cons, List.count_append, List.length_cons, Nat.add_mul, Nat.one_mul,
      Nat.mul_comm rs.length]
    omega

/-- The list `ds` is the list `cs` with the clauses `rs` in the place of the first leaf `t`: the clause
of this leaf stands there once for each of them. -/
def Exchanges (t : α) (rs cs ds : Clauses α) : Prop :=
  ∃ front pre post back, cs = front ++ (pre ++ t :: post) :: back ∧ (∀ c ∈ front, t ∉ c) ∧ t ∉ pre ∧
    ds = front ++ (rs.map fun c => pre ++ c ++ post) ++ back

namespace Exchanges

theorem leaf (t : α) (rs : Clauses α) : Exchanges t rs [[t]] rs :=
  ⟨[], [], [], [], by simp⟩

theorem append_right (h : Exchanges t rs cs ds) (xs : Clauses α) :
    Exchanges t rs (cs ++ xs) (ds ++ xs) := by
  obtain ⟨front, pre, post, back, rfl, hfront, hpre, rfl⟩ := h
  exact ⟨front, pre, post, back ++ xs, by simp, hfront, hpre, by simp⟩

/-- Clauses in front stay, if they do not have the leaf. -/
theorem append_left (h : Exchanges t rs cs ds) {xs : Clauses α} (hxs : t ∉ xs.flatten) :
    Exchanges t rs (xs ++ cs) (xs ++ ds) := by
  obtain ⟨front, pre, post, back, rfl, hfront, hpre, rfl⟩ := h
  refine ⟨xs ++ front, pre, post, back, by simp, fun c hc => ?_, hpre, by simp⟩
  rcases List.mem_append.1 hc with hc | hc
  · exact fun ht => hxs (List.mem_flatten_of_mem hc ht)
  · exact hfront c hc

/-- A clause joined to all clauses from behind stays, if it does not have the leaf. -/
theorem product_right (h : Exchanges t rs cs ds) {x : Clause α} (hx : t ∉ x) :
    Exchanges t rs (product cs [x]) (product ds [x]) := by
  obtain ⟨front, pre, post, back, rfl, hfront, hpre, rfl⟩ := h
  rw [product_singleton_right, product_singleton_right]
  refine ⟨front.map (· ++ x), pre, post ++ x, back.map (· ++ x), by simp, fun c hc => ?_, hpre,
    by simp [Function.comp_def]⟩
  obtain ⟨d, hd, rfl⟩ := List.mem_map.1 hc
  simp [hfront d hd, hx]

/-- A clause joined to all clauses from the front stays, if it does not have the leaf. -/
theorem product_left (h : Exchanges t rs cs ds) {x : Clause α} (hx : t ∉ x) :
    Exchanges t rs (product [x] cs) (product [x] ds) := by
  obtain ⟨front, pre, post, back, rfl, hfront, hpre, rfl⟩ := h
  rw [product_singleton_left, product_singleton_left]
  refine ⟨front.map (x ++ ·), x ++ pre, post, back.map (x ++ ·), by simp, fun c hc => ?_,
    by simp [hx, hpre], by simp [Function.comp_def]⟩
  obtain ⟨d, hd, rfl⟩ := List.mem_map.1 hc
  simp [hfront d hd, hx]

end Exchanges

end Exchange

/-- The first place of a leaf, told by what stands in front of it. -/
theorem firstPlace_of_split {t : Leaf} {front : Clauses Leaf} {pre : Clause Leaf}
    (hfront : ∀ c ∈ front, t ∉ c) (hpre : t ∉ pre) (post : Clause Leaf) (back : Clauses Leaf) :
    FirstPlace (front ++ (pre ++ t :: post) :: back) t front.length pre.length := by
  induction front with
  | nil =>
    refine FirstPlace.head (List.idxOf?_eq_some_iff.2 ⟨by simp, by simp, fun l hl => ?_⟩)
    rw [List.getElem_append_left hl]
    exact fun heq => hpre (heq ▸ List.getElem_mem hl)
  | cons c front ih =>
    rw [List.forall_mem_cons] at hfront
    exact (ih hfront.2).tail hfront.1

/-- **An injection for a leaf exchanges it.** -/
theorem Exchanges.injectFor_eq {t : Leaf} {cs ds : Clauses Leaf} {r : Formula Leaf}
    (h : Exchanges t r.clauses cs ds) : cs.injectFor t r = .ok ds := by
  obtain ⟨front, pre, post, back, rfl, hfront, hpre, rfl⟩ := h
  rw [(firstPlace_of_split hfront hpre post back).injectFor_eq]
  exact injectAt_eq_ok_iff.2 ⟨front, pre, t, post, back, rfl, rfl, rfl, rfl⟩

end Clauses

namespace Formula

variable {α : Type} [DecidableEq α]

theorem count_clauses_eq_zero {e : Formula α} {t : α} :
    e.clauses.flatten.count t = 0 ↔ t ∉ e.leaves := by
  rw [List.count_eq_zero, mem_flatten_clauses]

/-- **A leaf that stands in the clauses of a conjunction once** comes from one side, and is not copied:
the other side has a single clause, and does not have this leaf. -/
theorem count_clauses_and_eq_one {l s : Formula α} {t : α}
    (h : (and l s).clauses.flatten.count t = 1) :
    (l.clauses.flatten.count t = 1 ∧ t ∉ s.leaves ∧ ∃ c, s.clauses = [c] ∧ t ∉ c) ∨
    (s.clauses.flatten.count t = 1 ∧ t ∉ l.leaves ∧ ∃ c, l.clauses = [c] ∧ t ∉ c) := by
  have hsingle : ∀ {e : Formula α}, e.clauses.length = 1 → t ∉ e.leaves →
      ∃ c, e.clauses = [c] ∧ t ∉ c := by
    intro e hlength ht
    obtain ⟨c, hc⟩ := List.length_eq_one_iff.1 hlength
    rw [← mem_flatten_clauses, hc, List.flatten_singleton] at ht
    exact ⟨c, hc, ht⟩
  have hlength : ∀ e : Formula α, e.clauses.length ≠ 0 := fun e h =>
    e.clauses_ne_nil (List.length_eq_zero_iff.1 h)
  rw [clauses, Clauses.count_flatten_product] at h
  rcases Nat.add_eq_one_iff.1 h with ⟨hl, hs⟩ | ⟨hl, hs⟩
  · have hlnot := count_clauses_eq_zero.1 ((Nat.mul_eq_zero.1 hl).resolve_right (hlength s))
    exact .inr ⟨Nat.eq_one_of_mul_eq_one_left hs, hlnot,
      hsingle (Nat.eq_one_of_mul_eq_one_right hs) hlnot⟩
  · have hsnot := count_clauses_eq_zero.1 ((Nat.mul_eq_zero.1 hs).resolve_left (hlength l))
    exact .inl ⟨Nat.eq_one_of_mul_eq_one_right hl, hsnot,
      hsingle (Nat.eq_one_of_mul_eq_one_left hl) hsnot⟩

/-- **A substitution for a leaf that stands in the clauses once is an exchange.** What a conjunction
joins with the clause of this leaf is one clause, because it is not copied. -/
theorem exchanges_subst {e : Formula α} {t : α} (h : e.clauses.flatten.count t = 1)
    (r : Formula α) : Clauses.Exchanges t r.clauses e.clauses (e.subst t r).clauses := by
  induction e with
  | leaf a =>
    have ha : a = t := by
      by_contra hne
      simp [clauses, hne] at h
    rw [subst, if_pos ha, clauses, ha]
    exact .leaf t r.clauses
  | and l s ihl ihs =>
    rw [clauses, subst, clauses]
    rcases count_clauses_and_eq_one h with ⟨hl, hnot, c, hc, htc⟩ | ⟨hs, hnot, c, hc, htc⟩
    · rw [subst_of_not_mem hnot, hc]
      exact (ihl hl).product_right htc
    · rw [subst_of_not_mem hnot, hc]
      exact (ihs hs).product_left htc
  | or l s ihl ihs =>
    rw [clauses, List.flatten_append, List.count_append] at h
    rw [clauses, subst, clauses]
    rcases Nat.add_eq_one_iff.1 h with ⟨hl, hs⟩ | ⟨hl, hs⟩
    · rw [count_clauses_eq_zero] at hl
      rw [subst_of_not_mem hl]
      exact (ihs hs).append_left (mem_flatten_clauses.not.2 hl)
    · rw [count_clauses_eq_zero] at hs
      rw [subst_of_not_mem hs]
      exact (ihl hl).append_right _

/-- **An injection into a formula fails exactly for the leaves that the formula does not have.** -/
theorem injectFor_eq_notFound_iff {e r : Formula Leaf} {t : Leaf} :
    e.injectFor t r = .error (.notFound t) ↔ t ∉ e.leaves := by
  rw [injectFor, clauses_toDnf, ← mem_flatten_clauses]
  rcases Clauses.injectFor_cases e.clauses t r with ⟨⟨c, hc, ht⟩, ds, hds⟩ | ⟨hnone, herr⟩
  · rw [hds]
    exact iff_of_false (by simp [bind, Except.bind, pure, Except.pure]) fun h =>
      h (List.mem_flatten_of_mem hc ht)
  · rw [herr]
    refine iff_of_true rfl fun hmem => ?_
    obtain ⟨c, hc, ht⟩ := List.mem_flatten.1 hmem
    exact hnone c hc ht

/-- **Injection commutes with substitution** for a leaf that stands in the clauses once: clause by
clause for lists, and up to the meaning for the formula that is rebuilt. For a leaf that is missing in
the formula the injection fails, and only for such a leaf. -/
theorem injection_commutes (e r : Formula Leaf) (t : Leaf) :
    (e.toDnf.clauses.flatten.count t = 1 →
      Clauses.injectFor e.toDnf.clauses t r = .ok (e.subst t r).toDnf.clauses ∧
      ∃ f, e.injectFor t r = .ok f ∧ ∀ p, f.satisfied p = (e.subst t r).satisfied p) ∧
    (e.injectFor t r = .error (.notFound t) ↔ t ∉ e.leaves) ∧
    (InjectionError.notFound t).message = "token " ++ t.display ++ " not found in any clause" := by
  refine ⟨fun h => ?_, injectFor_eq_notFound_iff, rfl⟩
  rw [clauses_toDnf] at h
  have hclauses := (exchanges_subst h r).injectFor_eq
  rw [injectFor, clauses_toDnf, clauses_toDnf, hclauses]
  refine ⟨rfl, ofClauses (e.subst t r).clauses, rfl, fun p => ?_⟩
  rw [satisfied_eq, satisfied_eq, value_ofClauses p (clauses_ne_nil _), value_clauses]

/-- A leaf below a conjunction whose other side has a single clause. -/
theorem injection_commutes_below_and :
    let leafOf (i : Nat) (s : String) : Leaf := .literal ⟨i, [], s, none⟩
    let a := leafOf 1 "a"
    let b := leafOf 2 "b"
    let c := leafOf 3 "c"
    let x := leafOf 4 "x"
    let y := leafOf 5 "y"
    let e := and (or (leaf a) (leaf b)) (leaf c)
    let r := or (leaf x) (leaf y)
    e.toDnf.clauses.flatten.count b = 1 ∧
    Clauses.injectFor e.toDnf.clauses b r = .ok [[a, c], [x, c], [y, c]] ∧
    ∃ f, e.injectFor b r = .ok f ∧
      ∀ p, f.satisfied p = (and (or (leaf a) r) (leaf c)).satisfied p := by
  intro leafOf a b c x y e r
  have hcount : e.toDnf.clauses.flatten.count b = 1 := by decide
  exact ⟨hcount, (injection_commutes e r b).1 hcount⟩

end Formula

end PositiveLogic
