import PositiveLogic.Proofs.Injection

/-!
# Injection is local

An injection changes one clause of a list, at one of its leaves. It fails exactly where there is no such
leaf, and where it succeeds it means that the formula stands in the place of the leaf.

* `Clauses.injectAt_eq_clauseOutOfRange_iff` and `Clauses.injectAt_eq_leafOutOfRange_iff`: when an
  injection at a place fails, and with which error.
* `Clauses.Injected`: what an injection at a place gives, told from outside: how many clauses there
  are, which of them stay, what stands in their midst, and which predicates satisfy them.
* `Clauses.FirstPlace`: the first place of a leaf, clause by clause and from left to right in each.
  `Clauses.place?_eq_some_iff` says that this place is found.
* `Clauses.injection_at_place`: injections at a place and for a leaf.
-/

namespace PositiveLogic

namespace Clauses

variable {cs ds : Clauses Leaf} {c : Clause Leaf} {e r : Formula Leaf} {i j k l : Nat} {t : Leaf}

/-! ## Injection at a place -/

theorem injectAt_eq_clauseOutOfRange_iff :
    cs.injectAt i j e = .error (.clauseOutOfRange i cs.length) ↔ cs.length ≤ i := by
  rw [injectAt]
  split
  · next h => simpa using h
  · next target h =>
    obtain ⟨hi, -⟩ := List.getElem?_eq_some_iff.1 h
    split <;> simp [hi]

theorem injectAt_eq_leafOutOfRange_iff (hc : cs[i]? = some c) :
    cs.injectAt i j e = .error (.leafOutOfRange i j c.length) ↔ c.length ≤ j := by
  rw [injectAt, hc]
  by_cases hj : c.length ≤ j <;> simp [hj]

/-- **What an injection of `e` gives**, at place `j` of the clause `c` that stands at place `i` of
`cs`. -/
structure Injected (cs : Clauses Leaf) (i : Nat) (c : Clause Leaf) (j : Nat) (e : Formula Leaf)
    (ds : Clauses Leaf) : Prop where
  length_eq : ds.length = cs.length - 1 + e.toDnf.clauses.length
  before : ds.take i = cs.take i
  midst : (ds.drop i).take e.toDnf.clauses.length =
    e.toDnf.clauses.map fun d => c.take j ++ d ++ c.drop (j + 1)
  behind : ds.drop (i + e.toDnf.clauses.length) = cs.drop (i + 1)
  satisfied : ∀ p, ds.satisfied p = (Clauses.satisfied p (cs.eraseIdx i) ||
    (c.eraseIdx j).all (Token.value p) && e.satisfied p)

theorem value_map_append_append (p : Leaf → Bool) (pre post : Clause Leaf) (cs : Clauses Leaf) :
    value p (cs.map fun c => pre ++ c ++ post) =
      ((pre ++ post).all (Token.value p) && value p cs) := by
  have hproduct : (cs.map fun c => pre ++ c ++ post) = product (product [pre] cs) [post] := by
    rw [product_singleton_left, product_singleton_right, List.map_map]
    rfl
  have hsingle : ∀ c, value p [c] = c.all (Token.value p) := fun c => by simp [value]
  rw [hproduct, value_product, value_product, hsingle, hsingle, List.all_append,
    Bool.and_right_comm]

theorem eraseIdx_front {α : Type} (front back : List α) (a : α) :
    (front ++ a :: back).eraseIdx front.length = front ++ back := by
  rw [List.eraseIdx_append_of_length_le (Nat.le_refl _), Nat.sub_self, List.eraseIdx_cons_zero]

/-- **An injection puts a formula in the place of a leaf**: of its clause the other leaves have to
hold, and the formula. -/
theorem injected_of_injectAt (hc : cs[i]? = some c) (h : cs.injectAt i j e = .ok ds) :
    cs.Injected i c j e ds := by
  obtain ⟨front, pre, t, post, back, rfl, rfl, rfl, rfl⟩ := injectAt_eq_ok_iff.1 h
  obtain rfl : pre ++ t :: post = c := by simpa using hc
  rw [← Formula.clauses_toDnf]
  refine ⟨?_, ?_, ?_, ?_, fun p => ?_⟩
  · simp
    omega
  · simp
  · simp
  · simp [List.drop_append]
  · rw [satisfied_eq, satisfied_eq, Formula.satisfied_eq, eraseIdx_front, eraseIdx_front,
      value_append, value_append, value_append, value_map_append_append, Formula.clauses_toDnf,
      Formula.value_clauses, Bool.or_right_comm]

theorem exists_injectAt (hc : cs[i]? = some c) (hj : j < c.length) (e : Formula Leaf) :
    ∃ ds, cs.injectAt i j e = .ok ds := by
  rw [injectAt, hc]
  exact ⟨_, if_neg (Nat.not_le.2 hj)⟩

/-! ## Injection for a leaf -/

/-- The leaf at a place. -/
def leafAt? (cs : Clauses Leaf) (i j : Nat) : Option Leaf := cs[i]?.bind fun d => d[j]?

/-- The leaf `t` stands at place `j` of clause `i`, in no clause in front of it, and in this clause at
no place in front of `j`. -/
structure FirstPlace (cs : Clauses Leaf) (t : Leaf) (i j : Nat) : Prop where
  leafAt?_eq : cs.leafAt? i j = some t
  first : ∀ k l, cs.leafAt? k l = some t → i < k ∨ i = k ∧ j ≤ l

theorem FirstPlace.unique (h : cs.FirstPlace t i j) (h' : cs.FirstPlace t k l) : i = k ∧ j = l := by
  have hle := h.first k l h'.leafAt?_eq
  have hge := h'.first i j h.leafAt?_eq
  omega

theorem exists_leafAt?_iff : (∃ i j, cs.leafAt? i j = some t) ↔ ∃ c ∈ cs, t ∈ c := by
  simp only [leafAt?, Option.bind_eq_some_iff, List.mem_iff_getElem? (a := t),
    List.mem_iff_getElem? (l := cs)]
  tauto

theorem place?_eq_none_iff : place? t cs = none ↔ ∀ c ∈ cs, t ∉ c := by
  induction cs with
  | nil => simp [place?]
  | cons c cs ih =>
    rw [place?, List.forall_mem_cons, ← ih, ← List.idxOf?_eq_none_iff]
    cases c.idxOf? t <;> simp

theorem leafAt?_cons_zero (d : Clause Leaf) : leafAt? (d :: cs) 0 j = d[j]? := rfl

theorem FirstPlace.head (h : c.idxOf? t = some j) : FirstPlace (c :: cs) t 0 j := by
  obtain ⟨hj, heq, hfirst⟩ := List.idxOf?_eq_some_iff.1 h
  refine ⟨List.getElem?_eq_some_iff.2 ⟨hj, heq⟩, fun k l hkl => ?_⟩
  cases k with
  | zero =>
    obtain ⟨hl, hl'⟩ := List.getElem?_eq_some_iff.1 (leafAt?_cons_zero c ▸ hkl)
    exact .inr ⟨rfl, Nat.le_of_not_lt fun hlt => hfirst l hlt hl'⟩
  | succ k => exact .inl (Nat.succ_pos k)

theorem FirstPlace.tail (hc : t ∉ c) (h : cs.FirstPlace t i j) :
    FirstPlace (c :: cs) t (i + 1) j := by
  refine ⟨h.leafAt?_eq, fun k l hkl => ?_⟩
  cases k with
  | zero => exact absurd (List.mem_of_getElem? (leafAt?_cons_zero c ▸ hkl)) hc
  | succ k =>
    have hle := h.first k l hkl
    omega

theorem firstPlace_of_place? (h : place? t cs = some (i, j)) : cs.FirstPlace t i j := by
  induction cs generalizing i j with
  | nil => cases h
  | cons c cs ih =>
    rw [place?] at h
    split at h
    · next l hl =>
      obtain ⟨rfl, rfl⟩ := Prod.mk.inj (Option.some.inj h)
      exact .head hl
    · next hnone =>
      obtain ⟨⟨k, l⟩, hkl, heq⟩ := Option.map_eq_some_iff.1 h
      obtain ⟨rfl, rfl⟩ := Prod.mk.inj heq
      exact (ih hkl).tail (List.idxOf?_eq_none_iff.1 hnone)

/-- **The first place of a leaf is found.** -/
theorem place?_eq_some_iff : place? t cs = some (i, j) ↔ cs.FirstPlace t i j := by
  refine ⟨firstPlace_of_place?, fun h => ?_⟩
  cases hplace : place? t cs with
  | none =>
    obtain ⟨c, hc, ht⟩ := exists_leafAt?_iff.1 ⟨i, j, h.leafAt?_eq⟩
    exact absurd ht (place?_eq_none_iff.1 hplace c hc)
  | some kl =>
    obtain ⟨rfl, rfl⟩ := h.unique (firstPlace_of_place? hplace)
    rfl

/-- **An injection for a leaf is one at its first place.** -/
theorem FirstPlace.injectFor_eq (h : cs.FirstPlace t i j) (e : Formula Leaf) :
    cs.injectFor t e = cs.injectAt i j e := by
  rw [injectFor, place?_eq_some_iff.2 h]

theorem FirstPlace.exists_injectFor (h : cs.FirstPlace t i j) (e : Formula Leaf) :
    ∃ ds, cs.injectFor t e = .ok ds := by
  obtain ⟨c, hc, hj⟩ := Option.bind_eq_some_iff.1 h.leafAt?_eq
  rw [h.injectFor_eq]
  exact exists_injectAt hc (List.getElem?_eq_some_iff.1 hj).1 e

theorem exists_firstPlace_iff : (∃ i j, cs.FirstPlace t i j) ↔ ∃ c ∈ cs, t ∈ c := by
  refine ⟨fun ⟨i, j, h⟩ => exists_leafAt?_iff.1 ⟨i, j, h.leafAt?_eq⟩, fun ⟨c, hc, ht⟩ => ?_⟩
  cases hplace : place? t cs with
  | none => exact absurd ht (place?_eq_none_iff.1 hplace c hc)
  | some ij => exact ⟨ij.1, ij.2, firstPlace_of_place? hplace⟩

/-- **An injection for a leaf succeeds, or the leaf is in no clause.** -/
theorem injectFor_cases (cs : Clauses Leaf) (t : Leaf) (e : Formula Leaf) :
    ((∃ c ∈ cs, t ∈ c) ∧ ∃ ds, cs.injectFor t e = .ok ds) ∨
    (∀ c ∈ cs, t ∉ c) ∧ cs.injectFor t e = .error (.notFound t) := by
  by_cases h : ∃ c ∈ cs, t ∈ c
  · obtain ⟨i, j, hplace⟩ := exists_firstPlace_iff.2 h
    exact .inl ⟨h, hplace.exists_injectFor e⟩
  · have hnone : ∀ c ∈ cs, t ∉ c := fun c hc ht => h ⟨c, hc, ht⟩
    exact .inr ⟨hnone, by rw [injectFor, place?_eq_none_iff.2 hnone]⟩

theorem injectFor_eq_notFound_iff : cs.injectFor t e = .error (.notFound t) ↔ ∀ c ∈ cs, t ∉ c := by
  rcases injectFor_cases cs t e with ⟨⟨c, hc, ht⟩, ds, hds⟩ | ⟨hnone, herr⟩
  · rw [hds]
    exact iff_of_false (by simp) fun h => h c hc ht
  · exact iff_of_true herr hnone

theorem eq_notFound_of_injectFor {err : InjectionError} (h : cs.injectFor t e = .error err) :
    err = .notFound t := by
  rcases injectFor_cases cs t e with ⟨-, ds, hds⟩ | ⟨-, herr⟩
  · rw [hds] at h
    cases h
  · rw [herr] at h
    exact (Except.error.inj h).symm

/-- **An injection is local, exact, and means what it says.** At a place it fails exactly where there
is no leaf, and else the formula stands in the place of the leaf, with the rest of the list as it was.
An injection for a leaf is one at the first place of this leaf, and fails only if there is none. -/
theorem injection_at_place (cs : Clauses Leaf) (i j : Nat) (t : Leaf) (e : Formula Leaf) :
    (cs.injectAt i j e = .error (.clauseOutOfRange i cs.length) ↔ cs.length ≤ i) ∧
    (∀ c, cs[i]? = some c →
      (cs.injectAt i j e = .error (.leafOutOfRange i j c.length) ↔ c.length ≤ j) ∧
      (j < c.length → ∃ ds, cs.injectAt i j e = .ok ds ∧ cs.Injected i c j e ds)) ∧
    (∀ k l, cs.FirstPlace t k l → cs.injectFor t e = cs.injectAt k l e) ∧
    ((∃ k l, cs.FirstPlace t k l) ↔ ∃ c ∈ cs, t ∈ c) ∧
    (cs.injectFor t e = .error (.notFound t) ↔ ∀ c ∈ cs, t ∉ c) ∧
    (∀ err, cs.injectFor t e = .error err → err = .notFound t) ∧
    (InjectionError.notFound t).message = "token " ++ t.display ++ " not found in any clause" := by
  refine ⟨injectAt_eq_clauseOutOfRange_iff, fun c hc =>
    ⟨injectAt_eq_leafOutOfRange_iff hc, fun hj => ?_⟩, fun k l h => h.injectFor_eq e,
    exists_firstPlace_iff, injectFor_eq_notFound_iff, fun err => eq_notFound_of_injectFor, rfl⟩
  obtain ⟨ds, hds⟩ := exists_injectAt hc hj e
  exact ⟨ds, hds, injected_of_injectAt hc hds⟩

/-- A leaf that stands in two clauses, behind another one in the first of them. -/
theorem injection_at_place_repeated :
    let leafOf (i : Nat) (s : String) : Leaf := .literal ⟨i, [], s, none⟩
    let a := leafOf 1 "a"
    let b := leafOf 2 "b"
    let cs : Clauses Leaf := [[a], [a, b], [b]]
    let e := Formula.or (.leaf (leafOf 3 "x")) (.leaf (leafOf 4 "y"))
    cs[1]? = some [a, b] ∧ cs.FirstPlace b 1 1 ∧
    ∃ ds, cs.injectFor b e = .ok ds ∧ cs.Injected 1 [a, b] 1 e ds := by
  intro leafOf a b cs e
  have hplace : cs.FirstPlace b 1 1 := place?_eq_some_iff.1 (by decide)
  obtain ⟨-, hat, hfor, -⟩ := injection_at_place cs 1 1 b e
  obtain ⟨-, hok⟩ := hat [a, b] rfl
  obtain ⟨ds, hds, hinjected⟩ := hok (by decide)
  exact ⟨rfl, hplace, ds, (hfor 1 1 hplace).trans hds, hinjected⟩

end Clauses

end PositiveLogic
