import PositiveLogic.Proofs.Meaning
import PositiveLogic.Proofs.Questions

/-!
# The questions that are needed

With a predicate whose answers do not depend on what was asked before, the questions of an evaluation
can be told without running it. An evaluation is two searches, one inside the other: for the first
clause that holds, and in each clause for the first leaf that does not.

* `upToFirst`: a list up to the first element that passes a test, with this element.
* `Clause.needed`: the questions that a clause needs, and `Clause.run_holds`: it asks no others.
* `Clauses.run_witness?_needed`: the result of an evaluation and all of its questions.
-/

namespace PositiveLogic

section UpToFirst

variable {α : Type} {f : α → Bool} {x : α}

/-- A list up to the first element that passes a test, with this element. It is the whole list if no
element does. -/
def upToFirst (f : α → Bool) (l : List α) : List α := l.take (l.findIdx f + 1)

theorem upToFirst_cons_of_pos (h : f x = true) (xs : List α) : upToFirst f (x :: xs) = [x] := by
  rw [upToFirst, List.findIdx_cons, h]
  rfl

theorem upToFirst_cons_of_neg (h : f x = false) (xs : List α) :
    upToFirst f (x :: xs) = x :: upToFirst f xs := by
  rw [upToFirst, List.findIdx_cons, h]
  rfl

end UpToFirst

variable {p : Leaf → Bool} {t : Leaf}

namespace Clause

/-- The truth value of a clause: all of its leaves are true. -/
def value (p : Leaf → Bool) (c : Clause Leaf) : Bool := c.all (Token.value p)

theorem value_iff (p : Leaf → Bool) (c : Clause Leaf) :
    c.value p ↔ ∀ t ∈ c, t.isTruth = false → p t = true := by
  rw [value, List.all_eq_true]
  refine forall₂_congr fun t _ => ?_
  rw [Token.value]
  cases t.isTruth <;> simp

/-- The questions that a clause needs: its leaves without those that stand for truth, up to the first
that does not hold. -/
def needed (p : Leaf → Bool) (c : Clause Leaf) : List Leaf :=
  upToFirst (fun t => !p t) (c.filter fun t => !t.isTruth)

theorem needed_cons_of_isTruth (h : t.isTruth = true) (ts : Clause Leaf) :
    needed p (t :: ts) = needed p ts := by
  rw [needed, List.filter_cons_of_neg (by simp [h]), needed]

theorem needed_cons_of_true (h : t.isTruth = false) (hp : p t = true) (ts : Clause Leaf) :
    needed p (t :: ts) = t :: needed p ts := by
  rw [needed, List.filter_cons_of_pos (by simp [h]), upToFirst_cons_of_neg (by simp [hp]), needed]

theorem needed_cons_of_false (h : t.isTruth = false) (hp : p t = false) (ts : Clause Leaf) :
    needed p (t :: ts) = [t] := by
  rw [needed, List.filter_cons_of_pos (by simp [h]), upToFirst_cons_of_pos (by simp [hp])]

/-- **A clause asks the questions that it needs.** -/
theorem run_holds (p : Leaf → Bool) (asked : List Leaf) (c : Clause Leaf) :
    (holds (recording fun _ t => p t) c).run asked = (c.value p, asked ++ needed p c) := by
  induction c generalizing asked with
  | nil => exact congrArg (Prod.mk true) (List.append_nil asked).symm
  | cons t ts ih =>
    rw [holds, List.allM_cons, StateT.run_bind, value, List.all_cons, Token.value, Token.holds]
    cases htruth : t.isTruth with
    | true =>
      rw [needed_cons_of_isTruth htruth, Bool.true_or, Bool.true_and]
      exact ih asked
    | false =>
      rw [if_neg Bool.false_ne_true, run_recording, Bool.false_or]
      cases hp : p t with
      | true =>
        rw [needed_cons_of_true htruth hp, Bool.true_and,
          List.append_cons asked t (needed p ts)]
        exact ih (asked ++ [t])
      | false =>
        rw [needed_cons_of_false htruth hp, Bool.false_and]
        rfl

end Clause

namespace Clauses

/-- **An evaluation finds the first clause that holds, with the questions that are needed.** The clauses
up to this one, and all clauses if there is none, ask one after the other the questions that they
need. -/
theorem run_witness?_needed (p : Leaf → Bool) (asked : List Leaf) (cs : Clauses Leaf) :
    (cs.witness? (recording fun _ t => p t)).run asked =
      (cs.find? (Clause.value p),
        asked ++ (upToFirst (Clause.value p) cs).flatMap (Clause.needed p)) ∧
    ((cs.find? (Clause.value p)).isSome ↔
      ∃ c ∈ cs, ∀ t ∈ c, t.isTruth = false → p t = true) := by
  refine ⟨?_, by simp only [List.find?_isSome, Clause.value_iff]⟩
  induction cs generalizing asked with
  | nil => exact congrArg (Prod.mk none) (List.append_nil asked).symm
  | cons c cs ih =>
    rw [witness?, List.findM?, StateT.run_bind, Clause.run_holds p asked c]
    cases hc : c.value p with
    | true =>
      rw [List.find?_cons_of_pos hc, upToFirst_cons_of_pos hc, List.flatMap_singleton]
      rfl
    | false =>
      rw [List.find?_cons_of_neg (Bool.not_eq_true _ ▸ hc), upToFirst_cons_of_neg hc,
        List.flatMap_cons, ← List.append_assoc]
      exact ih (asked ++ Clause.needed p c)

end Clauses

end PositiveLogic
