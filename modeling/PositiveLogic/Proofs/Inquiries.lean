import PositiveLogic.Proofs.Questions

/-!
# Evaluations as inquiries

An evaluation asks a predicate about leaves, one after the other, and goes on with each answer. This is
all that it does with the predicate, whatever effects the predicate has: it is an inquiry, and the
predicate answers it.

* `Inquiry`: questions, and how to go on with an answer. It is a monad, so an evaluation can be made in
  it, with the predicate that only asks (`Inquiry.question`).
* `Inquiry.answeredBy_witness?`, `Inquiry.answeredBy_holds`: in every lawful monad, the evaluation with
  a predicate is the inquiry answered by this predicate.
* `Inquiry.AsksWithin`: which leaves can be asked, in which order.
* `Inquiry.AsksWithin.exists_run`: what is asked in a run is a sublist of them.
-/

namespace PositiveLogic

/-- A computation that asks questions and goes on with each answer, up to a result. -/
inductive Inquiry (α : Type)
  | result (a : α)
  | ask (t : Leaf) (next : Bool → Inquiry α)

namespace Inquiry

variable {m : Type → Type} [Monad m] {α β : Type} {x : Inquiry α} {f : α → Inquiry β}
  {l l' : List Leaf}

/-- Go on with the result of an inquiry. -/
def bind : Inquiry α → (α → Inquiry β) → Inquiry β
  | result a, f => f a
  | ask t next, f => ask t fun b => (next b).bind f

instance : Monad Inquiry where
  pure := result
  bind := bind

/-- The inquiry of a single question. -/
def question (t : Leaf) : Inquiry Bool :=
  ask t result

/-- Have the questions of an inquiry answered by a predicate. -/
def answeredBy (p : Leaf → m Bool) : Inquiry α → m α
  | result a => pure a
  | ask t next => p t >>= fun b => (next b).answeredBy p

theorem answeredBy_bind [LawfulMonad m] (p : Leaf → m Bool) (x : Inquiry α)
    (f : α → Inquiry β) :
    (x >>= f).answeredBy p = x.answeredBy p >>= fun a => (f a).answeredBy p := by
  induction x with
  | result a => exact (pure_bind a fun a => (f a).answeredBy p).symm
  | ask t next ih =>
    refine Eq.trans (bind_congr fun b => ih b) ?_
    rw [answeredBy, bind_assoc]

theorem answeredBy_allM [LawfulMonad m] (p : Leaf → m Bool) (q : α → Inquiry Bool) (l : List α) :
    (l.allM q).answeredBy p = l.allM fun x => (q x).answeredBy p := by
  induction l with
  | nil => rfl
  | cons x xs ih =>
    rw [List.allM_cons, List.allM_cons, answeredBy_bind]
    refine bind_congr fun b => ?_
    cases b with
    | true => exact ih
    | false => rfl

theorem answeredBy_findM? [LawfulMonad m] (p : Leaf → m Bool) (q : α → Inquiry Bool)
    (l : List α) : (l.findM? q).answeredBy p = l.findM? fun x => (q x).answeredBy p := by
  induction l with
  | nil => rfl
  | cons x xs ih =>
    rw [List.findM?, List.findM?, answeredBy_bind]
    refine bind_congr fun b => ?_
    cases b with
    | true => rfl
    | false => exact ih

theorem answeredBy_leaf [LawfulMonad m] (p : Leaf → m Bool) (t : Leaf) :
    (t.holds question).answeredBy p = t.holds p := by
  unfold Token.holds
  split
  · rfl
  · exact bind_pure (p t)

/-- **An evaluation of clauses is one inquiry**, whoever answers its questions. -/
theorem answeredBy_witness? [LawfulMonad m] (p : Leaf → m Bool) (cs : Clauses Leaf) :
    (cs.witness? question).answeredBy p = cs.witness? p := by
  have hclause : (fun c => (Clause.holds question c).answeredBy p) = Clause.holds p := by
    funext c
    rw [Clause.holds, answeredBy_allM, funext (answeredBy_leaf p), Clause.holds]
  rw [Clauses.witness?, answeredBy_findM?, hclause, Clauses.witness?]

/-- **An evaluation of a formula is one inquiry**, whoever answers its questions. -/
theorem answeredBy_holds [LawfulMonad m] (p : Leaf → m Bool) (e : Formula Leaf) :
    (e.holds question).answeredBy p = e.holds p := by
  induction e with
  | leaf t => exact answeredBy_leaf p t
  | and l r ihl ihr =>
    rw [Formula.holds, answeredBy_bind, ihl, Formula.holds]
    refine bind_congr fun b => ?_
    cases b with
    | true => exact ihr
    | false => rfl
  | or l r ihl ihr =>
    rw [Formula.holds, answeredBy_bind, ihl, Formula.holds]
    refine bind_congr fun b => ?_
    cases b with
    | true => rfl
    | false => exact ihr

/-! ## What is asked -/

/-- Whatever the answers are, an inquiry asks elements of a list only, in their order, each at most
once. -/
def AsksWithin : Inquiry α → List Leaf → Prop
  | result _, _ => True
  | ask t next, l => ∃ front back, l = front ++ t :: back ∧ ∀ b, (next b).AsksWithin back

theorem AsksWithin.append_left (h : x.AsksWithin l) (l' : List Leaf) : x.AsksWithin (l' ++ l) := by
  cases x with
  | result a => trivial
  | ask t next =>
    obtain ⟨front, back, rfl, hnext⟩ := h
    exact ⟨l' ++ front, back, (List.append_assoc _ _ _).symm, hnext⟩

theorem AsksWithin.bind (h : x.AsksWithin l) (hf : ∀ a, (f a).AsksWithin l') :
    (x >>= f).AsksWithin (l ++ l') := by
  induction x generalizing l with
  | result a => exact (hf a).append_left l
  | ask t next ih =>
    obtain ⟨front, back, rfl, hnext⟩ := h
    exact ⟨front, back ++ l', by simp, fun b => ih b (hnext b)⟩

theorem AsksWithin.allM {q : α → Inquiry Bool} {g : α → List Leaf}
    (h : ∀ a, (q a).AsksWithin (g a)) (xs : List α) : (xs.allM q).AsksWithin (xs.flatMap g) := by
  induction xs with
  | nil => trivial
  | cons x xs ih =>
    rw [List.allM_cons, List.flatMap_cons]
    refine (h x).bind fun b => ?_
    cases b with
    | true => exact ih
    | false => trivial

theorem AsksWithin.findM? {q : α → Inquiry Bool} {g : α → List Leaf}
    (h : ∀ a, (q a).AsksWithin (g a)) (xs : List α) : (xs.findM? q).AsksWithin (xs.flatMap g) := by
  induction xs with
  | nil => trivial
  | cons x xs ih =>
    rw [List.findM?, List.flatMap_cons]
    refine (h x).bind fun b => ?_
    cases b with
    | true => trivial
    | false => exact ih

theorem asksWithin_leaf (t : Leaf) :
    (t.holds question).AsksWithin ([t].filter fun t => !t.isTruth) := by
  unfold Token.holds
  split
  · trivial
  · next h => exact ⟨[], [], by simp [h], fun _ => trivial⟩

/-- The leaves of clauses are asked in their order, without those that stand for truth. -/
theorem asksWithin_witness? (cs : Clauses Leaf) :
    (cs.witness? question).AsksWithin (cs.flatten.filter fun t => !t.isTruth) := by
  have hclause : ∀ c : Clause Leaf,
      (Clause.holds question c).AsksWithin (c.filter fun t => !t.isTruth) := by
    intro c
    have := AsksWithin.allM asksWithin_leaf c
    rwa [← List.filter_flatMap, List.flatMap_singleton'] at this
  rw [List.filter_flatten]
  exact AsksWithin.findM? hclause cs

/-- The leaves of a formula are asked in their order, without those that stand for truth. -/
theorem asksWithin_holds (e : Formula Leaf) :
    (e.holds question).AsksWithin (e.leaves.filter fun t => !t.isTruth) := by
  induction e with
  | leaf t => exact asksWithin_leaf t
  | and l r ihl ihr =>
    rw [Formula.holds, Formula.leaves, List.filter_append]
    refine ihl.bind fun b => ?_
    cases b with
    | true => exact ihr
    | false => trivial
  | or l r ihl ihr =>
    rw [Formula.holds, Formula.leaves, List.filter_append]
    refine ihl.bind fun b => ?_
    cases b with
    | true => trivial
    | false => exact ihr

/-! ## Runs -/

/-- A run of an inquiry remembers its questions behind those that were asked before. -/
theorem AsksWithin.exists_run (h : x.AsksWithin l) (answer : List Leaf → Leaf → Bool)
    (asked : List Leaf) : ∃ a calls,
      (x.answeredBy (recording answer)).run asked = (a, asked ++ calls) ∧ calls.Sublist l := by
  induction x generalizing l asked with
  | result a => exact ⟨a, [], by rw [List.append_nil]; rfl, List.nil_sublist l⟩
  | ask t next ih =>
    obtain ⟨front, back, rfl, hnext⟩ := h
    obtain ⟨a, calls, hrun, hcalls⟩ := ih (answer asked t) (hnext _) (asked ++ [t])
    refine ⟨a, t :: calls, ?_, ?_⟩
    · rw [List.append_cons]
      exact hrun
    · exact (hcalls.cons_cons t).trans (List.sublist_append_right front _)

end Inquiry

end PositiveLogic
