import PositiveLogic.Proofs.FirstFailure
import PositiveLogic.Proofs.Verdicts

/-!
# More that holds

No stage of an evaluation asks for what does not hold: a modifier is a part of the text of a literal
and never turns an answer round. So where more leaves hold, what was satisfied stays satisfied, and
the witness moves to the front if it moves at all.

* `FirstAt f l i x`: the first element of a list that passes a test, with its place. It is found no
  later by a test that passes more (`exists_firstAt_mono`).
* `Clauses.WitnessAt` and `Formula.WitnessAt`: what an evaluation reports, which is told by its place
  among the clauses or among the alternatives.
* `Request.satisfaction_monotone`: the evaluations are monotone, and so is the command `eval`.
-/

namespace PositiveLogic

/-! ## The first element that passes -/

section First

variable {α : Type} {f g : α → Bool} {l : List α} {i : Nat} {x : α}

/-- The element `x` stands at the place `i` and is the first of a list that passes a test. -/
def FirstAt (f : α → Bool) (l : List α) (i : Nat) (x : α) : Prop :=
  l.findIdx f = i ∧ l[i]? = some x

theorem FirstAt.find?_eq (h : FirstAt f l i x) : l.find? f = some x := by
  rw [List.find?_eq_getElem?_findIdx, h.1, h.2]

theorem exists_firstAt (h : l.find? f = some x) : ∃ i, FirstAt f l i x := by
  rw [List.find?_eq_getElem?_findIdx] at h
  exact ⟨_, rfl, h⟩

/-- **A test that passes more finds its first element no later.** -/
theorem exists_firstAt_mono (h : l.find? f = some x) (hfg : ∀ y ∈ l, f y → g y) :
    ∃ i j y, FirstAt f l i x ∧ FirstAt g l j y ∧ j ≤ i := by
  obtain ⟨i, hi⟩ := exists_firstAt h
  have hle : l.findIdx g ≤ l.findIdx f := List.findIdx_le_findIdx hfg
  obtain ⟨hlt, -⟩ := List.getElem?_eq_some_iff.1 hi.2
  have hg : l.findIdx g < l.length := (hle.trans_eq hi.1).trans_lt hlt
  exact ⟨i, _, _, hi, ⟨rfl, List.getElem?_eq_getElem hg⟩, hle.trans_eq hi.1⟩

end First

/-! ## Evaluations -/

section Evaluations

variable {p q : Leaf → Bool}

theorem Token.value_mono (h : ∀ t, p t → q t) (t : Leaf) (ht : t.value p) : t.value q := by
  unfold value at ht ⊢
  rw [Bool.or_eq_true] at ht ⊢
  exact ht.imp_right (h t)

theorem Clause.all_value_mono (h : ∀ t, p t → q t) (c : Clause Leaf)
    (hc : c.all (Token.value p)) : c.all (Token.value q) := by
  rw [List.all_eq_true] at hc ⊢
  exact fun t ht => Token.value_mono h t (hc t ht)

theorem Formula.value_mono (h : ∀ t, p t → q t) (e : Formula Leaf) (he : e.value p) :
    e.value q := by
  induction e with
  | leaf t => exact Token.value_mono h t he
  | and l r ihl ihr =>
    simp only [value, Bool.and_eq_true] at he ⊢
    exact ⟨ihl he.1, ihr he.2⟩
  | or l r ihl ihr =>
    simp only [value, Bool.or_eq_true] at he ⊢
    exact he.imp ihl ihr

/-- The evaluation of a list of clauses with a predicate without effects reports the clause `c`, in
whatever monad it runs, and also where the predicate could fail: `c` stands at the place `i`, and no
clause in front of it holds. -/
structure Clauses.WitnessAt (p : Leaf → Bool) (cs : Clauses Leaf) (i : Nat) (c : Clause Leaf) :
    Prop where
  firstAt : FirstAt (fun c => c.all (Token.value p)) cs i c
  witness?_eq : ∀ {m : Type → Type} [Monad m] [LawfulMonad m],
    cs.witness? (fun t => (pure (p t) : m Bool)) = pure (some c)
  tryWitness?_eq : ∀ {m : Type → Type} [Monad m] [LawfulMonad m] {ε : Type},
    cs.tryWitness? (fun t => (pure (.ok (p t)) : m (Except ε Bool))) = pure (.ok (some c))

/-- The evaluation of a formula with a predicate without effects reports the alternative `f`, in
whatever monad it runs: `f` stands at the place `i`, and no alternative in front of it holds. -/
structure Formula.WitnessAt (p : Leaf → Bool) (e : Formula Leaf) (i : Nat) (f : Formula Leaf) :
    Prop where
  firstAt : FirstAt (value p) e.alternatives i f
  witness?_eq : ∀ {m : Type → Type} [Monad m] [LawfulMonad m],
    e.witness? (fun t => (pure (p t) : m Bool)) = pure (some f)

theorem Clauses.tryWitness?_pure {m : Type → Type} [Monad m] [LawfulMonad m] {ε : Type}
    (p : Leaf → Bool) (cs : Clauses Leaf) :
    cs.tryWitness? (fun t => (pure (.ok (p t)) : m (Except ε Bool))) =
      pure (.ok (cs.find? fun c => c.all (Token.value p))) := by
  have hok := tryWitness?_ok (ε := ε) (fun t => (pure (p t) : m Bool)) cs
  simp only [map_pure, witness?_pure] at hok
  exact hok

theorem Clauses.witnessAt_iff {cs : Clauses Leaf} {i : Nat} {c : Clause Leaf} :
    cs.WitnessAt p i c ↔ FirstAt (fun c => c.all (Token.value p)) cs i c := by
  refine ⟨WitnessAt.firstAt, fun h => ⟨h, ?_, ?_⟩⟩ <;> intros
  · rw [witness?_pure, h.find?_eq]
  · rw [tryWitness?_pure, h.find?_eq]

theorem Formula.witnessAt_iff {e f : Formula Leaf} {i : Nat} :
    e.WitnessAt p i f ↔ FirstAt (value p) e.alternatives i f := by
  refine ⟨WitnessAt.firstAt, fun h => ⟨h, ?_⟩⟩
  intros
  rw [witness?_pure, h.find?_eq]

end Evaluations

/-! ## The command -/

theorem Output.verdict_inj {b b' : Bool} {w w' : Json} (h : verdict b w = verdict b' w') :
    b = b' ∧ w = w' := by
  cases h
  exact ⟨rfl, rfl⟩

namespace Request

variable {r : Request} {e : Formula Leaf}

/-- Where a witness is found, something holds: a text has no literal that holds without being asked,
and no clause without literals. -/
theorem ne_nil_of_witness (h : r.formula = .ok e) {all : List String} {i : Nat} {c : Clause Leaf}
    (hc : e.clauses.WitnessAt (fun t => all.contains t.display) i c) : all ≠ [] := by
  rintro rfl
  have hmem : c ∈ e.clauses := List.mem_of_getElem? hc.firstAt.2
  have hall := List.find?_some hc.firstAt.find?_eq
  obtain ⟨t, ht⟩ := List.exists_mem_of_ne_nil c (Formula.ne_nil_of_mem_clauses hmem)
  have hvalue := List.all_eq_true.1 hall t ht
  rw [Token.value, isTruth_eq_false_of_formula h (List.mem_flatten_of_mem hmem ht)] at hvalue
  cases hvalue

/-- **`eval` reports a witness** exactly if the evaluation of the clauses does, where the literals
that are given hold. -/
theorem execute_eval_eq_verdict_iff (h : r.formula = .ok e) (truths : List String)
    {more : List String} (hmore : Command.inputTruths? r.input = some more) {w : Json} :
    { r with command := .eval truths }.execute = .ok (.verdict true w) ↔
      e.clauses.length ≤ r.limits.maxClauses ∧ ∃ i c,
        e.clauses.WitnessAt (fun t => (truths ++ more).contains t.display) i c ∧
        w = .texts (Clause.texts c) := by
  have hwitness : Command.witness? (truths ++ more) e.clauses = e.clauses.find? fun c =>
      c.all (Token.value fun t => (truths ++ more).contains t.display) := Clauses.run_witness? _ _
  have hsome := Command.isSome_witness? (truths ++ more) e.clauses
  rw [Formula.value_clauses] at hsome
  rw [execute_eval_eq_ok_iff truths h]
  constructor
  · rintro ⟨all, hall, hle, ho⟩
    obtain ⟨more', hmore', -, rfl⟩ := Command.allTruths_eq_ok_iff.1 hall
    obtain rfl : more = more' := Option.some.inj (hmore.symm.trans hmore')
    obtain ⟨htrue, rfl⟩ := Output.verdict_inj ho
    rw [← htrue] at hsome
    obtain ⟨c, hc⟩ := Option.isSome_iff_exists.1 hsome
    obtain ⟨i, hi⟩ := exists_firstAt (hwitness.symm.trans hc)
    exact ⟨hle, i, c, Clauses.witnessAt_iff.2 hi, by rw [hc]; rfl⟩
  · rintro ⟨hle, i, c, hc, rfl⟩
    have hfound : Command.witness? (truths ++ more) e.clauses = some c :=
      hwitness.trans hc.firstAt.find?_eq
    have hgiven : truths ≠ [] ∨ r.input ≠ none := by
      by_contra hnone
      simp only [not_or, not_not] at hnone
      obtain ⟨rfl, hinput⟩ := hnone
      rw [hinput] at hmore
      cases hmore
      exact ne_nil_of_witness h hc rfl
    refine ⟨_, Command.allTruths_eq_ok_iff.2 ⟨more, hmore, hgiven, rfl⟩, hle, ?_⟩
    rw [← hsome, hfound]
    rfl

/-- **Satisfaction is monotone in what holds.** If `eval` reports a witness for a text, it does so
where more literals are given, whichever way they are given, and the witness stands at the same
place among the clauses of the text or in front of it. The same holds of the evaluation of clauses,
also with a predicate that could fail but does not, and of that of formulas, for any two predicates
without effects of which the second one holds wherever the first one does. -/
theorem satisfaction_monotone :
    (∀ (r : Request) (input : Option String) (truths truths' more more' : List String) (w : Json),
      Command.inputTruths? r.input = some more → Command.inputTruths? input = some more' →
      truths ++ more ⊆ truths' ++ more' →
      { r with command := .eval truths }.execute = .ok (.verdict true w) →
      ∃ (e : Formula Leaf) (i j : Nat) (c c' : Clause Leaf), r.formula = .ok e ∧
        e.clauses.WitnessAt (fun t => (truths ++ more).contains t.display) i c ∧
        e.clauses.WitnessAt (fun t => (truths' ++ more').contains t.display) j c' ∧ j ≤ i ∧
        w = .texts (Clause.texts c) ∧
        { r with command := .eval truths', input := input }.execute =
          .ok (.verdict true (.texts (Clause.texts c')))) ∧
    ∀ p q : Leaf → Bool, (∀ t, p t → q t) →
      (∀ (cs : Clauses Leaf) (c : Clause Leaf),
        Id.run (cs.witness? fun t => pure (p t)) = some c →
        ∃ i j c', cs.WitnessAt p i c ∧ cs.WitnessAt q j c' ∧ j ≤ i) ∧
      (∀ (ε : Type) (cs : Clauses Leaf) (c : Clause Leaf),
        Id.run (cs.tryWitness? fun t => pure (.ok (p t) : Except ε Bool)) = .ok (some c) →
        ∃ i j c', cs.WitnessAt p i c ∧ cs.WitnessAt q j c' ∧ j ≤ i) ∧
      ∀ e f : Formula Leaf, Id.run (e.witness? fun t => pure (p t)) = some f →
        ∃ i j f', e.WitnessAt p i f ∧ e.WitnessAt q j f' ∧ j ≤ i := by
  refine ⟨fun r input truths truths' more more' w hmore hmore' hsub ho => ?_, fun p q hpq =>
    ⟨fun cs c hc => ?_, fun ε cs c hc => ?_, fun e f hf => ?_⟩⟩
  · obtain ⟨e, he, -⟩ := bind_eq_ok_iff.1 ho
    have he : r.formula = .ok e := he
    obtain ⟨hle, i, c, hc, rfl⟩ := (execute_eval_eq_verdict_iff he truths hmore).1 ho
    have hholds : ∀ t : Leaf, (truths ++ more).contains t.display →
        (truths' ++ more').contains t.display := by
      intro t ht
      rw [List.contains_iff_mem] at ht ⊢
      exact hsub ht
    obtain ⟨i', j, c', hi', hj, hji⟩ :=
      exists_firstAt_mono hc.firstAt.find?_eq fun c _ => Clause.all_value_mono hholds c
    -- both places are the first one that holds
    obtain rfl : i = i' := hc.firstAt.1.symm.trans hi'.1
    have hj := Clauses.witnessAt_iff.2 hj
    refine ⟨e, i, j, c, c', he, hc, hj, hji, rfl, ?_⟩
    exact (execute_eval_eq_verdict_iff (r := { r with input := input }) he truths' hmore').2
      ⟨hle, j, c', hj, rfl⟩
  · rw [Clauses.run_witness?] at hc
    simp only [Clauses.witnessAt_iff]
    exact exists_firstAt_mono hc fun c _ => Clause.all_value_mono hpq c
  · rw [Clauses.tryWitness?_pure, Id.run_pure] at hc
    simp only [Clauses.witnessAt_iff]
    exact exists_firstAt_mono (Except.ok.inj hc) fun c _ => Clause.all_value_mono hpq c
  · rw [Formula.witness?_pure] at hf
    simp only [Formula.witnessAt_iff]
    exact exists_firstAt_mono hf fun f _ => Formula.value_mono hpq f

/-- A literal with a modifier holds if its text is given. With one text more, given another way, the
witness moves from the second clause to the first. -/
theorem satisfaction_monotone_modifier : ∃ (r : Request) (a b : Leaf) (input : String),
    r = ⟨"b||!a", { modifiers := CharSet.ofList ['!'] }, .check, ⟨0, 2⟩, none⟩ ∧
    r.formula = .ok (.or (.leaf b) (.leaf a)) ∧ Command.inputTruths? (some input) = some ["!a", "b"] ∧
    { r with command := .eval ["!a"] }.execute = .ok (.verdict true (.texts ["!a"])) ∧
    { r with command := .eval ["c"], input := some input }.execute =
      .ok (.verdict true (.texts ["b"])) ∧
    (∃ i j c', Clauses.WitnessAt (· == a) [[b], [a]] i [a] ∧
      Clauses.WitnessAt (fun t => t == a || t == b) [[b], [a]] j c' ∧ j ≤ i) ∧
    ∃ i j f', (Formula.or (.leaf b) (.leaf a)).WitnessAt (· == a) i (.leaf a) ∧
      (Formula.or (.leaf b) (.leaf a)).WitnessAt (fun t => t == a || t == b) j f' ∧ j ≤ i := by
  let a : Leaf := .literal ⟨2, ['!'], "a", none⟩
  let b : Leaf := .literal ⟨1, [], "b", none⟩
  let r : Request :=
    ⟨"b||!a", { modifiers := CharSet.ofList ['!'] }, .check, ⟨0, 2⟩, none⟩
  have hread : r.formula = .ok (.or (.leaf b) (.leaf a)) := by cbv
  have hinput : Command.inputTruths? (some "[\"!a\", \"b\"]") = some ["!a", "b"] := by decide +kernel
  have hfirst : Clauses.WitnessAt (fun t => ["!a"].contains t.display) [[b], [a]] 1 [a] :=
    Clauses.witnessAt_iff.2 ⟨by decide, rfl⟩
  have heval := (execute_eval_eq_verdict_iff hread ["!a"] rfl).2 ⟨by decide, 1, [a], hfirst, rfl⟩
  obtain ⟨hcommand, hlibrary⟩ := satisfaction_monotone
  obtain ⟨-, hfallible, hformula⟩ := hlibrary (· == a) (fun t => t == a || t == b) (by simp)
  obtain ⟨e, i, j, c, c', he, -, hj, -, -, hmore⟩ :=
    hcommand r _ ["!a"] ["c"] [] ["!a", "b"] _ rfl hinput (by simp) heval
  obtain rfl := Except.ok.inj (hread.symm.trans he)
  obtain rfl : 0 = j := hj.firstAt.1
  obtain rfl : [b] = c' := Option.some.inj hj.firstAt.2
  refine ⟨r, a, b, _, rfl, hread, hinput, heval, hmore, ?_, ?_⟩
  · exact hfallible String [[b], [a]] [a] rfl
  · exact hformula (.or (.leaf b) (.leaf a)) (.leaf a) rfl

end Request

end PositiveLogic
