import PositiveLogic.Evaluation
import PositiveLogic.Proofs.NormalForm

/-!
# The questions of an evaluation

A formula in disjunctive normal form and its clauses ask a predicate the same questions in the same
order. The predicate may have any effects, so one question more, or two of them exchanged, could
change every later answer: what agrees is the whole computation.

* `firstPlace?`: the search for the first element that passes, up to the element itself. A search for
  an element is a search for its place (`findM?_eq_firstPlace?`).
* `Formula.OrFree.holds_eq`: without disjunctions, a formula asks its leaves from left to right and
  stops at the first that does not hold, as the clause of these leaves does.
* `Formula.IsDnf.firstPlace?_alternatives`: so the search among the alternatives of a formula in
  disjunctive normal form is the search among its clauses.
* `Formula.evaluations_ask_alike`: the two evaluations of `toDnf` agree.
-/

namespace PositiveLogic

/-! ## Searching for a place -/

section Search

variable {m : Type → Type} [Monad m] {α β : Type}

/-- The place of the first element that passes a test. The elements are tested in order, and none
behind that one. -/
def firstPlace? (q : α → m Bool) : List α → m (Option Nat)
  | [] => pure none
  | x :: xs => do
    if ← q x then return some 0
    else return (← firstPlace? q xs).map (· + 1)

/-- The element at a place that was found. -/
def elementAt? (l : List α) (place? : Option Nat) : Option α :=
  place?.bind fun k => l[k]?

theorem elementAt?_cons_succ (x : α) (xs : List α) (place? : Option Nat) :
    elementAt? (x :: xs) (place?.map (· + 1)) = elementAt? xs place? := by
  cases place? <;> rfl

theorem isSome_elementAt? (l : List α) (place? : Option Nat) :
    (elementAt? l place?).isSome = place?.any fun k => decide (k < l.length) := by
  cases place? with
  | none => rfl
  | some k =>
    rw [elementAt?, Option.bind_some, Option.any_some]
    by_cases h : k < l.length
    · rw [List.getElem?_eq_getElem h, decide_eq_true h, Option.isSome_some]
    · rw [List.getElem?_eq_none (Nat.le_of_not_lt h), decide_eq_false h, Option.isSome_none]

theorem firstPlace?_map (q : β → m Bool) (f : α → β) (l : List α) :
    firstPlace? q (l.map f) = firstPlace? (fun x => q (f x)) l := by
  induction l with
  | nil => rfl
  | cons x xs ih => rw [List.map_cons, firstPlace?, ih, firstPlace?]

theorem firstPlace?_congr {q q' : α → m Bool} {l : List α} (h : ∀ x ∈ l, q x = q' x) :
    firstPlace? q l = firstPlace? q' l := by
  induction l with
  | nil => rfl
  | cons x xs ih =>
    rw [firstPlace?, h x List.mem_cons_self, ih fun y hy => h y (List.mem_cons_of_mem x hy),
      firstPlace?]

/-- **A search finds the element at the first place that passes**, and has no other effects than the
search for this place. -/
theorem findM?_eq_firstPlace? [LawfulMonad m] (q : α → m Bool) (l : List α) :
    l.findM? q = elementAt? l <$> firstPlace? q l := by
  induction l with
  | nil => rw [firstPlace?, map_pure]; rfl
  | cons x xs ih =>
    rw [List.findM?, firstPlace?, map_bind, ih]
    refine bind_congr fun b => ?_
    cases b with
    | true =>
      rw [if_pos rfl, map_pure]
      rfl
    | false =>
      rw [if_neg Bool.false_ne_true, map_bind, map_eq_pure_bind]
      refine bind_congr fun place? => ?_
      rw [map_pure, elementAt?_cons_succ]

end Search

variable {m : Type → Type} [Monad m]

/-! ## The questions of a clause -/

namespace Clause

/-- A clause in two parts holds if both parts do; the second part is asked only if the first holds. -/
theorem holds_append [LawfulMonad m] (p : Leaf → m Bool) (c c' : Clause Leaf) :
    holds p (c ++ c') = do if ← holds p c then holds p c' else return false := by
  unfold holds
  induction c with
  | nil => rw [List.nil_append, List.allM_nil, pure_bind, if_pos rfl]
  | cons t ts ih =>
    rw [List.cons_append, List.allM_cons, List.allM_cons, bind_assoc]
    refine bind_congr fun b => ?_
    cases b with
    | true => exact ih
    | false => rw [if_neg Bool.false_ne_true, if_neg Bool.false_ne_true, pure_bind,
        if_neg Bool.false_ne_true]

theorem holds_singleton [LawfulMonad m] (p : Leaf → m Bool) (t : Leaf) :
    holds p [t] = t.holds p := by
  rw [holds, List.allM_cons]
  refine Eq.trans (bind_congr fun b => ?_) (bind_pure (t.holds p))
  cases b <;> rfl

end Clause

/-! ## The questions of a formula -/

/-- A predicate that remembers what it was asked, and whose answer may depend on this. -/
def recording (answer : List Leaf → Leaf → Bool) (t : Leaf) : StateM (List Leaf) Bool := do
  let asked ← get
  set (asked ++ [t])
  return answer asked t

theorem run_recording (answer : List Leaf → Leaf → Bool) (t : Leaf) (asked : List Leaf) :
    (recording answer t).run asked = (answer asked t, asked ++ [t]) := rfl

namespace Formula

variable {e : Formula Leaf}

/-- **A formula without disjunctions asks what the clause of its leaves asks.** -/
theorem OrFree.holds_eq [LawfulMonad m] (p : Leaf → m Bool) (h : e.OrFree) :
    e.holds p = Clause.holds p e.leaves := by
  induction e with
  | leaf t => exact (Clause.holds_singleton p t).symm
  | and l r ihl ihr => rw [holds, ihl h.1, ihr h.2, leaves, Clause.holds_append]
  | or l r _ _ => exact h.elim

/-- The search among the alternatives of a formula in disjunctive normal form is the search among its
clauses. -/
theorem IsDnf.firstPlace?_alternatives [LawfulMonad m] (p : Leaf → m Bool) (h : e.IsDnf) :
    firstPlace? (holds p) e.alternatives = firstPlace? (Clause.holds p) e.clauses := by
  rw [h.clauses_eq_map, firstPlace?_map]
  exact firstPlace?_congr fun f hf => (h.orFree_of_mem_alternatives hf).holds_eq p

theorem IsDnf.map_clauses_alternatives (h : e.IsDnf) :
    e.alternatives.map clauses = e.clauses.map fun c => [c] := by
  rw [h.clauses_eq_map, List.map_map]
  exact List.map_congr_left fun f hf => (h.orFree_of_mem_alternatives hf).clauses_eq

theorem IsDnf.length_alternatives (h : e.IsDnf) : e.alternatives.length = e.clauses.length := by
  rw [h.clauses_eq_map, List.length_map]

/-- **The evaluation of a disjunctive normal form and that of its clauses ask the same questions.**
Both are one search for a place, whatever effects the predicate has: the one gives the alternative at
this place, the other the clause at it, which is the only clause of this alternative. In particular
they end with the same list of questions, where each answer may depend on the questions before. -/
theorem evaluations_ask_alike [LawfulMonad m] (p : Leaf → m Bool) (e : Formula Leaf) :
    firstPlace? (holds p) e.toDnf.alternatives =
      firstPlace? (Clause.holds p) e.toDnf.clauses ∧
    e.toDnf.witness? p =
      elementAt? e.toDnf.alternatives <$> firstPlace? (holds p) e.toDnf.alternatives ∧
    e.toDnf.clauses.witness? p =
      elementAt? e.toDnf.clauses <$> firstPlace? (Clause.holds p) e.toDnf.clauses ∧
    Option.isSome <$> e.toDnf.witness? p = Option.isSome <$> e.toDnf.clauses.witness? p ∧
    e.toDnf.alternatives.map clauses = e.toDnf.clauses.map (fun c => [c]) ∧
    ∀ answer asked, ∃ place? asked',
      (e.toDnf.witness? (recording answer)).run asked =
        (elementAt? e.toDnf.alternatives place?, asked') ∧
      (e.toDnf.clauses.witness? (recording answer)).run asked =
        (elementAt? e.toDnf.clauses place?, asked') := by
  have hdnf := isDnf_toDnf e
  have htree : ∀ {m : Type → Type} [Monad m] [LawfulMonad m] (p : Leaf → m Bool),
      e.toDnf.witness? p =
        elementAt? e.toDnf.alternatives <$> firstPlace? (holds p) e.toDnf.alternatives :=
    fun p => findM?_eq_firstPlace? (holds p) e.toDnf.alternatives
  have hlist : ∀ {m : Type → Type} [Monad m] [LawfulMonad m] (p : Leaf → m Bool),
      e.toDnf.clauses.witness? p =
        elementAt? e.toDnf.clauses <$> firstPlace? (Clause.holds p) e.toDnf.clauses :=
    fun p => findM?_eq_firstPlace? (Clause.holds p) e.toDnf.clauses
  refine ⟨hdnf.firstPlace?_alternatives p, htree p, hlist p, ?_, hdnf.map_clauses_alternatives,
    fun answer asked => ?_⟩
  · rw [htree, hlist, hdnf.firstPlace?_alternatives p, Functor.map_map, Functor.map_map]
    congr 1
    funext place?
    rw [isSome_elementAt?, isSome_elementAt?, hdnf.length_alternatives]
  · let search := (firstPlace? (Clause.holds (recording answer)) e.toDnf.clauses).run asked
    refine ⟨search.1, search.2, ?_, ?_⟩
    · rw [htree, hdnf.firstPlace?_alternatives]
      rfl
    · rw [hlist]
      rfl

/-- A leaf of both alternatives is refused when it is the second to be asked, and accepted when it is
the fourth: the second alternative holds. -/
theorem evaluations_ask_alike_wavering : ∃ a b c : Leaf, ∃ answer,
    let d := (and (or (leaf a) (leaf b)) (leaf c)).toDnf
    (d.witness? (recording answer)).run [] = (some (and (leaf b) (leaf c)), [a, c, b, c]) ∧
    (d.clauses.witness? (recording answer)).run [] = (some [b, c], [a, c, b, c]) := by
  let a : Leaf := .literal ⟨1, [], "a", none⟩
  let b : Leaf := .literal ⟨2, [], "b", none⟩
  let c : Leaf := .literal ⟨3, [], "c", none⟩
  let answer (asked : List Leaf) (_ : Leaf) : Bool := asked.length != 1
  have hclauses : (and (or (leaf a) (leaf b)) (leaf c)).toDnf.clauses = [[a, c], [b, c]] := rfl
  have hplace : (firstPlace? (Clause.holds (recording answer)) [[a, c], [b, c]]).run [] =
      (some 1, [a, c, b, c]) := rfl
  obtain ⟨hsearch, htree, hlist, -⟩ :=
    evaluations_ask_alike (recording answer) (and (or (leaf a) (leaf b)) (leaf c))
  refine ⟨a, b, c, answer, ?_, ?_⟩
  · rw [htree, hsearch, hclauses, StateT.run_map, hplace]
    rfl
  · rw [hlist, hclauses, StateT.run_map, hplace]
    rfl

end Formula

end PositiveLogic
