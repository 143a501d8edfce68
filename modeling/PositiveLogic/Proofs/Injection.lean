import PositiveLogic.Clause.Combination
import PositiveLogic.Proofs.FactoredForm

/-!
# Injection

An injection that succeeds cuts the list of clauses at one leaf: the clause of this leaf is written
once for each clause of the replacement, and what stands in front of the leaf and behind it, in the
clause and in the list, stays.

* `Clauses.injectAt_eq_ok_iff`: when an injection succeeds, and what it gives.
* `Clauses.mem_flatten_of_injectAt`: no leaf comes from elsewhere.
* `Clauses.hasGap_of_injectAt`: no gap is made.
-/

namespace PositiveLogic

theorem exists_split_of_getElem? {α : Type} {l : List α} {i : Nat} {a : α} (h : l[i]? = some a) :
    ∃ front back, l = front ++ a :: back ∧ front.length = i := by
  obtain ⟨hi, rfl⟩ := List.getElem?_eq_some_iff.1 h
  refine ⟨l.take i, l.drop (i + 1), ?_, List.length_take_of_le hi.le⟩
  rw [← List.drop_eq_getElem_cons hi, List.take_append_drop]

namespace Clauses

variable {cs ds : Clauses Leaf} {e : Formula Leaf} {i j : Nat} {t : Leaf}

/-- **An injection succeeds exactly at a leaf of the list**, and it replaces the clause of the leaf
by one clause for each clause of the replacement. -/
theorem injectAt_eq_ok_iff : cs.injectAt i j e = .ok ds ↔
    ∃ front pre t post back, cs = front ++ (pre ++ t :: post) :: back ∧
      front.length = i ∧ pre.length = j ∧
      ds = front ++ (e.clauses.map fun c => pre ++ c ++ post) ++ back := by
  constructor
  · intro h
    rw [injectAt, Formula.clauses_toDnf] at h
    split at h
    · cases h
    · next target htarget =>
      split at h
      · cases h
      · next hj =>
        obtain ⟨t, ht⟩ : ∃ t, target[j]? = some t :=
          ⟨_, List.getElem?_eq_getElem (Nat.not_le.1 hj)⟩
        obtain ⟨front, back, rfl, rfl⟩ := exists_split_of_getElem? htarget
        obtain ⟨pre, post, rfl, rfl⟩ := exists_split_of_getElem? ht
        exact ⟨front, pre, t, post, back, rfl, rfl, rfl, by simpa using (Except.ok.inj h).symm⟩
  · rintro ⟨front, pre, t, post, back, rfl, rfl, rfl, rfl⟩
    simp [injectAt, Formula.clauses_toDnf]

theorem exists_injectAt_of_injectFor (h : cs.injectFor t e = .ok ds) :
    ∃ i j, cs.injectAt i j e = .ok ds := by
  rw [injectFor] at h
  split at h
  · cases h
  · exact ⟨_, _, h⟩

/-- **Every leaf of the result is one of the list or of the replacement.** -/
theorem mem_flatten_of_injectAt (h : cs.injectAt i j e = .ok ds) (ht : t ∈ ds.flatten) :
    t ∈ cs.flatten ∨ t ∈ e.leaves := by
  obtain ⟨front, pre, u, post, back, rfl, -, -, rfl⟩ := injectAt_eq_ok_iff.1 h
  obtain ⟨c, hc, ht⟩ := List.mem_flatten.1 ht
  simp only [List.mem_append, List.mem_map] at hc
  rcases hc with (hc | ⟨inner, hinner, rfl⟩) | hc
  · exact .inl (List.mem_flatten.2 ⟨c, by simp [hc], ht⟩)
  · simp only [List.mem_append] at ht
    rcases ht with (ht | ht) | ht
    · exact .inl (by simp [ht])
    · exact .inr ((Formula.sublist_leaves_of_mem_clauses hinner).subset ht)
    · exact .inl (by simp [ht])
  · exact .inl (List.mem_flatten.2 ⟨c, by simp [hc], ht⟩)

/-- **An injection makes no gap**: it leaves a clause, and makes none empty. -/
theorem hasGap_of_injectAt (h : cs.injectAt i j e = .ok ds) (hgap : cs.hasGap = false) :
    ds.hasGap = false := by
  have hcs := (hasGap_eq_false_iff.1 hgap).2
  obtain ⟨front, pre, u, post, back, rfl, -, -, rfl⟩ := injectAt_eq_ok_iff.1 h
  refine hasGap_eq_false_iff.2 ⟨by simp [e.clauses_ne_nil], fun c hc => ?_⟩
  simp only [List.mem_append, List.mem_map] at hc
  rcases hc with (hc | ⟨inner, hinner, rfl⟩) | hc
  · exact hcs c (by simp [hc])
  · simp [Formula.ne_nil_of_mem_clauses hinner]
  · exact hcs c (by simp [hc])

end Clauses

namespace Formula

/-- **An injection into a formula adds no leaf**, not even the truth leaf: the clauses that it
rebuilds the formula from have no gaps. -/
theorem mem_leaves_of_injectFor {e r f : Formula Leaf} {target t : Leaf}
    (h : e.injectFor target r = .ok f) (ht : t ∈ f.leaves) : t ∈ e.leaves ∨ t ∈ r.leaves := by
  rw [injectFor, clauses_toDnf] at h
  obtain ⟨ds, hds, hf⟩ := bind_eq_ok_iff.1 h
  obtain ⟨i, j, hds⟩ := Clauses.exists_injectAt_of_injectFor hds
  obtain rfl := Except.ok.inj hf
  have hgap := Clauses.hasGap_of_injectAt hds e.hasGap_clauses
  rw [leaves_ofClauses, Clauses.orTruth_eq_self hgap] at ht
  exact (Clauses.mem_flatten_of_injectAt hds ht).imp_left mem_flatten_clauses.1

end Formula

end PositiveLogic
