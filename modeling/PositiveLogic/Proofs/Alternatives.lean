import PositiveLogic.Proofs.Inquiries

/-!
# The alternatives of a formula

The evaluation of a formula takes the disjunctions at its top apart, and evaluates the alternatives one
after the other. This asks what the formula itself asks, operand by operand: whatever effects the
predicate has, it is the same computation, and in addition it tells which alternative holds.

* `Formula.unstack`: the alternatives are found with a stack of formulas that are still to be taken
  apart (`Formula.unstack_eq`).
* `Formula.mem_alternatives_iff`: they are what is reached through disjunctions only (`AtTop`) and is
  no disjunction. They stand in the order of the formula (`Formula.flatMap_leaves_alternatives`).
* `Formula.anyM_alternatives`: one of them holds if the formula does, with the same questions.
* `Formula.exists_run_witness?`: what a run of the evaluation asks.
* `Formula.evaluation_of_alternatives`: all of this, and which alternative the evaluation reports.
-/

namespace PositiveLogic

/-! ## Searches -/

section Search

variable {m : Type → Type} [Monad m] {α σ : Type}

theorem isSome_map_findM? [LawfulMonad m] (q : α → m Bool) (l : List α) :
    Option.isSome <$> l.findM? q = l.anyM q := by
  induction l with
  | nil => exact map_pure _ _
  | cons x xs ih =>
    rw [List.findM?, List.anyM_cons, map_bind]
    refine bind_congr fun b => ?_
    cases b with
    | true => exact map_pure _ _
    | false => exact ih

theorem anyM_append [LawfulMonad m] (q : α → m Bool) (l l' : List α) :
    (l ++ l').anyM q = (do if ← l.anyM q then return true else l'.anyM q) := by
  induction l with
  | nil => rw [List.nil_append, List.anyM_nil, pure_bind, if_neg Bool.false_ne_true]
  | cons x xs ih =>
    rw [List.cons_append, List.anyM_cons, List.anyM_cons, bind_assoc]
    refine bind_congr fun b => ?_
    cases b with
    | true => rw [if_pos rfl, if_pos rfl, pure_bind, if_pos rfl]
    | false => exact ih

/-- What a search finds passes, and nothing in front of it did. -/
theorem exists_append_of_run_findM? {q : α → StateM σ Bool} {l : List α} {s s' : σ} {x : α}
    (h : (l.findM? q).run s = (some x, s')) : ∃ front back s₁, l = front ++ x :: back ∧
      (front.anyM q).run s = (false, s₁) ∧ (q x).run s₁ = (true, s') := by
  induction l generalizing s with
  | nil => cases h
  | cons y ys ih =>
    rw [List.findM?, StateT.run_bind] at h
    cases hy : (q y).run s with
    | mk b s₁ =>
      rw [hy] at h
      cases b with
      | true =>
        cases h
        exact ⟨[], ys, s, rfl, rfl, hy⟩
      | false =>
        obtain ⟨front, back, s₂, rfl, hfront, hx⟩ := ih h
        refine ⟨y :: front, back, s₂, rfl, ?_, hx⟩
        rw [List.anyM_cons, StateT.run_bind, hy]
        exact hfront

end Search

namespace Formula

/-! ## The top of a formula -/

section Top

variable {α : Type} {e f : Formula α}

/-- Take formulas apart with a stack: a disjunction is replaced by its operands, the left one on top,
and what is no disjunction is taken off. -/
def unstack : List (Formula α) → List (Formula α)
  | [] => []
  | or l r :: stack => unstack (l :: r :: stack)
  | e :: stack => e :: unstack stack
termination_by stack => stack.foldr (fun e n => sizeOf e + n) 0
decreasing_by
  · simp only [List.foldr_cons, or.sizeOf_spec]
    omega
  · have : 0 < sizeOf e := by cases e <;> simp +arith
    simp only [List.foldr_cons]
    omega

/-- **A stack is taken apart from its top on**, each formula into its alternatives. -/
theorem unstack_eq (stack : List (Formula α)) : unstack stack = stack.flatMap alternatives := by
  fun_induction unstack stack with
  | case1 => rfl
  | case2 l r stack ih =>
    rw [ih, List.flatMap_cons, List.flatMap_cons, List.flatMap_cons, alternatives, List.append_assoc]
  | case3 e stack hor ih =>
    rw [ih, List.flatMap_cons, alternatives.eq_def]
    split
    · exact absurd rfl (hor _ _)
    · rfl

/-- The formula `f` is reached from the top of another one through disjunctions only. -/
inductive AtTop (f : Formula α) : Formula α → Prop
  | here : AtTop f f
  | left {l r : Formula α} (h : AtTop f l) : AtTop f (or l r)
  | right {l r : Formula α} (h : AtTop f r) : AtTop f (or l r)

/-- Whether a formula is a disjunction. -/
def isOr : Formula α → Bool
  | or _ _ => true
  | _ => false

theorem eq_iff_atTop (he : e.isOr = false) : f = e ↔ AtTop f e ∧ f.isOr = false := by
  constructor
  · rintro rfl
    exact ⟨.here, he⟩
  · rintro ⟨h, -⟩
    cases h with
    | here => rfl
    | left | right => cases he

/-- **The alternatives are the formulas at the top that are no disjunctions.** -/
theorem mem_alternatives_iff : f ∈ e.alternatives ↔ AtTop f e ∧ f.isOr = false := by
  induction e with
  | or l r ihl ihr =>
    rw [alternatives, List.mem_append, ihl, ihr, ← or_and_right]
    refine and_congr_left fun hf => ⟨fun h => h.elim .left .right, fun h => ?_⟩
    cases h with
    | here => cases hf
    | left h => exact .inl h
    | right h => exact .inr h
  | leaf a => exact List.mem_singleton.trans (eq_iff_atTop rfl)
  | and l r => exact List.mem_singleton.trans (eq_iff_atTop rfl)

/-- **The alternatives stand in the order of the formula.** -/
theorem flatMap_leaves_alternatives (e : Formula α) : e.alternatives.flatMap leaves = e.leaves := by
  induction e with
  | or l r ihl ihr => rw [alternatives, List.flatMap_append, ihl, ihr, leaves]
  | _ => exact List.append_nil _

end Top

/-! ## Evaluations -/

variable {m : Type → Type} [Monad m]

/-- **The alternatives ask what the formula asks.** -/
theorem anyM_alternatives [LawfulMonad m] (p : Leaf → m Bool) (e : Formula Leaf) :
    e.alternatives.anyM (holds p) = e.holds p := by
  have single : ∀ f : Formula Leaf, [f].anyM (holds p) = f.holds p := by
    intro f
    rw [List.anyM_cons]
    refine Eq.trans (bind_congr fun b => ?_) (bind_pure (f.holds p))
    cases b <;> rfl
  induction e with
  | or l r ihl ihr => rw [alternatives, anyM_append, ihl, ihr, holds]
  | leaf t => exact single (leaf t)
  | and l r => exact single (and l r)

theorem isSome_map_witness? [LawfulMonad m] (p : Leaf → m Bool) (e : Formula Leaf) :
    Option.isSome <$> e.witness? p = e.holds p := by
  rw [witness?, isSome_map_findM?, anyM_alternatives]

/-- **A run of the evaluation asks what a run of the formula asks**, leaves in their order. -/
theorem exists_run_witness? (answer : List Leaf → Leaf → Bool) (asked : List Leaf)
    (e : Formula Leaf) : ∃ w calls,
      (e.witness? (recording answer)).run asked = (w, asked ++ calls) ∧
      (e.holds (recording answer)).run asked = (w.isSome, asked ++ calls) ∧
      calls.Sublist (e.leaves.filter fun t => !t.isTruth) := by
  obtain ⟨b, calls, hrun, hcalls⟩ := (Inquiry.asksWithin_holds e).exists_run answer asked
  rw [Inquiry.answeredBy_holds] at hrun
  cases hw : (e.witness? (recording answer)).run asked with
  | mk w asked' =>
    have hmap : (e.holds (recording answer)).run asked = (w.isSome, asked') := by
      rw [← isSome_map_witness?, StateT.run_map, hw]
      rfl
    obtain rfl : asked' = asked ++ calls := congrArg Prod.snd (hmap.symm.trans hrun)
    exact ⟨w, calls, rfl, hmap, hcalls⟩

/-- **To take the top of a formula apart does not change its evaluation.** Whatever effects the
predicate has, the evaluation of the alternatives is the evaluation of the formula, operand by operand,
and tells in addition which of them holds. The alternatives are the formulas at the top that are no disjunctions,
in their order, and so they are found with a stack. What is asked is a sublist of the leaves without
those that stand for truth, so no leaf is asked more often than it occurs. The alternative that is
reported was found to hold, and those in front of it were found not to. -/
theorem evaluation_of_alternatives [LawfulMonad m] (p : Leaf → m Bool) (e : Formula Leaf) :
    Option.isSome <$> e.witness? p = e.holds p ∧
    unstack [e] = e.alternatives ∧
    (∀ f, f ∈ e.alternatives ↔ AtTop f e ∧ f.isOr = false) ∧
    e.alternatives.flatMap leaves = e.leaves ∧
    ∀ answer asked, ∃ w calls,
      (e.witness? (recording answer)).run asked = (w, asked ++ calls) ∧
      (e.holds (recording answer)).run asked = (w.isSome, asked ++ calls) ∧
      calls.Sublist (e.leaves.filter fun t => !t.isTruth) ∧
      (∀ t, calls.count t ≤ e.leaves.count t) ∧
      ∀ f, w = some f → ∃ front back asked', e.alternatives = front ++ f :: back ∧
        (front.anyM (holds (recording answer))).run asked = (false, asked') ∧
        (f.holds (recording answer)).run asked' = (true, asked ++ calls) := by
  refine ⟨isSome_map_witness? p e, ?_, fun f => mem_alternatives_iff,
    flatMap_leaves_alternatives e, fun answer asked => ?_⟩
  · rw [unstack_eq, List.flatMap_singleton]
  · obtain ⟨w, calls, hw, hholds, hcalls⟩ := exists_run_witness? answer asked e
    refine ⟨w, calls, hw, hholds, hcalls, fun t => ?_, fun f hf => ?_⟩
    · exact (hcalls.trans List.filter_sublist).count_le t
    · subst hf
      exact exists_append_of_run_findM? hw

/-- A leaf that occurs twice is refused when it is asked first and accepted when it is asked fourth. -/
theorem evaluation_of_alternatives_wavering : ∃ a b c d : Leaf, ∃ answer,
    let e := or (or (leaf a) (and (leaf b) (leaf c))) (or (leaf a) (leaf d))
    (e.witness? (recording answer)).run [] = (some (leaf a), [a, b, c, a]) ∧
    (e.holds (recording answer)).run [] = (true, [a, b, c, a]) ∧
    unstack [e] = [leaf a, and (leaf b) (leaf c), leaf a, leaf d] := by
  let a : Leaf := .literal ⟨1, [], "a", none⟩
  let b : Leaf := .literal ⟨2, [], "b", none⟩
  let c : Leaf := .literal ⟨3, [], "c", none⟩
  let d : Leaf := .literal ⟨4, [], "d", none⟩
  let answer (asked : List Leaf) (_ : Leaf) : Bool :=
    asked.length == 1 || asked.length == 3
  let e := or (or (leaf a) (and (leaf b) (leaf c))) (or (leaf a) (leaf d))
  have hrun : (e.witness? (recording answer)).run [] = (some (leaf a), [a, b, c, a]) := rfl
  obtain ⟨-, hstack, -, -, hevaluation⟩ := evaluation_of_alternatives (recording answer) e
  obtain ⟨w, calls, hw, hholds, -⟩ := hevaluation answer []
  obtain ⟨rfl, rfl⟩ : some (leaf a) = w ∧ [a, b, c, a] = calls := Prod.mk.inj (hrun.symm.trans hw)
  exact ⟨a, b, c, d, answer, hrun, hholds, hstack⟩

end Formula

end PositiveLogic
