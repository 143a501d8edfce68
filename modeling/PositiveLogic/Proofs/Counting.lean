import PositiveLogic.Proofs.Bounds

/-!
# The count of clauses is exact

`Formula.count` multiplies and adds numbers that stay at a ceiling once they reach it, and stops at
the first subformula that has too many clauses. `Formula.clauseTotal` is the number it stands for: the
same products and sums without a ceiling and without a limit.

* `Formula.clauseTotal_eq`: this is the number of clauses that are listed.
* `Formula.count_exact`: the count is this number up to the ceiling, and it is given exactly if it is
  within the limit.
-/

namespace PositiveLogic

namespace Formula

variable {α : Type} {e f : Formula α} {limit n : Nat}

/-- The number of clauses that a formula stands for, however large it is. -/
def clauseTotal : Formula α → Nat
  | leaf _ => 1
  | and l r => l.clauseTotal * r.clauseTotal
  | or l r => l.clauseTotal + r.clauseTotal

theorem clauseTotal_eq (e : Formula α) : e.clauseTotal = e.clauses.length := by
  induction e with
  | leaf a => rfl
  | and l r ihl ihr => rw [clauseTotal, ihl, ihr, length_clauses_and]
  | or l r ihl ihr => rw [clauseTotal, ihl, ihr, length_clauses_or]

theorem count_eq_ite (limit : Nat) (e : Formula α) :
    e.count limit = if min e.clauseTotal countCeiling ≤ limit
      then .ok (min e.clauseTotal countCeiling) else .error ⟨limit⟩ := by
  rw [count_eq, ← clauseTotal_eq, countWithin_eq]
  split
  · next h => exact sizeWithin_of_le id h
  · next h => exact sizeWithin_of_lt id (Nat.not_le.1 h)

theorem count_eq_ok_iff : e.count limit = .ok n ↔
    min e.clauseTotal countCeiling ≤ limit ∧ n = min e.clauseTotal countCeiling := by
  rw [count_eq_ite]
  generalize min e.clauseTotal countCeiling = total
  split
  · next h => simp [h, eq_comm]
  · next h => simp [h]

theorem count_eq_error_iff :
    e.count limit = .error ⟨limit⟩ ↔ limit < min e.clauseTotal countCeiling := by
  rw [count_eq_ite]
  generalize min e.clauseTotal countCeiling = total
  split
  · next h => simp [Nat.not_lt.2 h]
  · next h => simp [Nat.not_le.1 h]

theorem clauseTotal_le_of_mem_subformulas (h : f ∈ e.subformulas) :
    f.clauseTotal ≤ e.clauseTotal := by
  rw [clauseTotal_eq, clauseTotal_eq]
  exact length_clauses_le_of_mem_subformulas h

/-- **The count of clauses is exact.** It is the number of clauses, or the ceiling 2^64 - 1 where there
are more, and it is refused exactly if that is above the limit. So a subformula whose count is refused
has a formula around it whose count is above the limit too; a count below the ceiling is the true
number; and where the ceiling is not passed the clauses can be listed, and the count is the length of
the list. -/
theorem count_exact (limit : Nat) (e : Formula α) :
    e.count limit = (if min e.clauseTotal countCeiling ≤ limit
      then .ok (min e.clauseTotal countCeiling) else .error ⟨limit⟩) ∧
    (∀ f ∈ e.subformulas, f.count limit = .error ⟨limit⟩ →
      limit < min e.clauseTotal countCeiling ∧ e.count limit = .error ⟨limit⟩) ∧
    (∀ n, e.count limit = .ok n →
      n = e.clauseTotal ∨ n = countCeiling ∧ countCeiling < e.clauseTotal) ∧
    (e.clauseTotal ≤ countCeiling → e.expand countCeiling = .ok e.clauses ∧
      (e.clauseTotal ≤ limit → e.count limit = .ok e.clauses.length)) := by
  refine ⟨count_eq_ite limit e, fun f hf herror => ?_, fun n hn => ?_, fun hfits => ⟨?_, ?_⟩⟩
  · have hle := clauseTotal_le_of_mem_subformulas hf
    have hlt : limit < min e.clauseTotal countCeiling := by
      have := count_eq_error_iff.1 herror
      omega
    exact ⟨hlt, count_eq_error_iff.2 hlt⟩
  · obtain ⟨-, rfl⟩ := count_eq_ok_iff.1 hn
    omega
  · rw [expand_eq, clausesWithin_eq, sizeWithin_of_le List.length]
    rwa [← clauseTotal_eq]
  · intro hlimit
    rw [count_eq_ok_iff, ← clauseTotal_eq]
    omega

/-- A conjunction of 65 disjunctions has more clauses than can be told apart: its count is the
ceiling, and one below the ceiling it is refused. -/
example :
    let a : Formula Nat := leaf 1
    let e := (List.replicate 64 (or a a)).foldl and (or a a)
    e.clauseTotal = 2 ^ 65 ∧ e.count countCeiling = .ok countCeiling ∧
      e.count (countCeiling - 1) = .error ⟨countCeiling - 1⟩ :=
  ⟨rfl, rfl, rfl⟩

end Formula

end PositiveLogic
