import PositiveLogic.Proofs.Inquiries

/-!
# Evaluations that may fail

A predicate may answer a question with an error, which ends the evaluation. `Clauses.tryWitness?` has
loops of its own for this, and is still the evaluation `Clauses.witness?`, cut at the first error.

* `Inquiry.tryAnsweredBy`: an inquiry whose questions are answered by a predicate that may fail.
* `Inquiry.tryAnsweredBy_leaves`, `Inquiry.tryAnsweredBy_witness?`: the loop over the leaves of a clause
  and the loop over the clauses ask what `Clauses.witness?` asks, in every monad. So a predicate that
  never fails makes no difference (`Clauses.tryWitness?_ok`).
* `Inquiry.Cut`: how the run of an inquiry with a predicate that may fail goes, beside the run with a
  predicate without errors. Every inquiry has such a run (`Inquiry.AsksWithin.exists_cut`).
* `Clauses.tryWitness?_cut_at_error`: what this says of the two evaluations of clauses.
-/

namespace PositiveLogic

/-- A predicate that remembers what it was asked, and whose answer may depend on this and may be an
error. -/
def tryRecording {ε : Type} (answer : List Leaf → Leaf → Except ε Bool) (t : Leaf) :
    StateM (List Leaf) (Except ε Bool) := do
  let asked ← get
  set (asked ++ [t])
  return answer asked t

theorem run_tryRecording {ε : Type} (answer : List Leaf → Leaf → Except ε Bool) (t : Leaf)
    (asked : List Leaf) : (tryRecording answer t).run asked = (answer asked t, asked ++ [t]) := rfl

/-- The answers to questions that are asked one after the other. -/
def answersTo {β : Type} (answer : List Leaf → Leaf → β) (asked : List Leaf) : List Leaf → List β
  | [] => []
  | t :: ts => answer asked t :: answersTo answer (asked ++ [t]) ts

namespace Inquiry

/-! ## Answers that may be errors -/

section Answers

variable {m : Type → Type} [Monad m] {α ε : Type}

/-- Have the questions of an inquiry answered by a predicate that may fail. An error ends it. -/
def tryAnsweredBy (p : Leaf → m (Except ε Bool)) : Inquiry α → m (Except ε α)
  | result a => return .ok a
  | ask t next => do
    match ← p t with
    | .ok b => (next b).tryAnsweredBy p
    | .error e => return .error e

theorem tryAnsweredBy_ok [LawfulMonad m] (p : Leaf → m Bool) (x : Inquiry α) :
    x.tryAnsweredBy (fun t => (.ok <$> p t : m (Except ε Bool))) = .ok <$> x.answeredBy p := by
  induction x with
  | result a => exact (map_pure _ a).symm
  | ask t next ih =>
    rw [tryAnsweredBy, bind_map_left, answeredBy, map_bind]
    exact bind_congr fun b => ih b

/-- **The loop over the leaves of a clause** asks what the clause asks. Where the clause does not hold,
it goes on with the next one. -/
theorem tryAnsweredBy_leaves (p : Leaf → m (Except ε Bool)) (c : Clause Leaf)
    (next : Inquiry (Option (Clause Leaf))) (ts : List Leaf) :
    (Clause.holds question ts >>= fun
      | true => pure (some c)
      | false => next).tryAnsweredBy p =
      Clause.tryLeaves p c (fun _ => next.tryAnsweredBy p) ts := by
  induction ts with
  | nil => rfl
  | cons t ts ih =>
    rw [Clause.holds, List.allM_cons, Token.holds, Clause.tryLeaves]
    cases t.isTruth with
    | true => exact ih
    | false =>
      -- the question stands in front of all that follows it
      change (ask t fun b => (if b then _ else _) >>= _).tryAnsweredBy p = _
      rw [tryAnsweredBy, if_neg Bool.false_ne_true]
      refine bind_congr fun r => ?_
      cases r with
      | error e => rfl
      | ok b =>
        cases b with
        | true => exact ih
        | false => rfl

/-- **The loop over the clauses** asks what their evaluation asks. -/
theorem tryAnsweredBy_witness? (p : Leaf → m (Except ε Bool)) (cs : Clauses Leaf) :
    (cs.witness? question).tryAnsweredBy p = cs.tryWitness? p := by
  induction cs with
  | nil => rfl
  | cons c cs ih =>
    rw [Clauses.tryWitness?, ← ih, ← tryAnsweredBy_leaves, Clauses.witness?, List.findM?]
    rfl

end Answers

/-! ## The cut -/

variable {α ε : Type} {x : Inquiry α} {l : List Leaf}

theorem run_ask_tryRecording (answer : List Leaf → Leaf → Except ε Bool) (asked : List Leaf)
    (t : Leaf) (next : Bool → Inquiry α) :
    ((ask t next).tryAnsweredBy (tryRecording answer)).run asked =
      match answer asked t with
      | .ok b => ((next b).tryAnsweredBy (tryRecording answer)).run (asked ++ [t])
      | .error e => (.error e, asked ++ [t]) := by
  rw [tryAnsweredBy, StateT.run_bind, run_tryRecording]
  cases answer asked t <;> rfl

/-- How the run of an inquiry goes that may fail: which questions are asked, and which of them are
answered without an error. -/
structure Cut (answer : List Leaf → Leaf → Except ε Bool) (asked : List Leaf) (x : Inquiry α)
    (l : List Leaf) (outcome : Except ε α) (calls : List Leaf) (given : List Bool) : Prop where
  run_eq : (x.tryAnsweredBy (tryRecording answer)).run asked = (outcome, asked ++ calls)
  calls_sublist : calls.Sublist l
  /-- An inquiry that has a result has met no error. -/
  answers_of_ok : ∀ a, outcome = .ok a → answersTo answer asked calls = given.map .ok
  /-- An inquiry that fails has met one error, at its last question. -/
  answers_of_error : ∀ e, outcome = .error e →
    answersTo answer asked calls = given.map .ok ++ [.error e]
  /-- With a predicate that gives the same answers, and one where there was an error, the inquiry asks
  the same questions. It asks more only behind an error. -/
  run_plain : ∀ plain : List Leaf → Leaf → Bool, given <+: answersTo plain asked calls →
    ∃ a more, (x.answeredBy (recording plain)).run asked = (a, asked ++ (calls ++ more)) ∧
      (calls ++ more).Sublist l ∧ ∀ a', outcome = .ok a' → a = a' ∧ more = []

namespace Cut

variable {answer : List Leaf → Leaf → Except ε Bool} {asked calls : List Leaf} {t : Leaf}
  {next : Bool → Inquiry α} {outcome : Except ε α} {given : List Bool} {e : ε} {b : Bool}

theorem mono {l' : List Leaf} (h : Cut answer asked x l outcome calls given) (hl : l.Sublist l') :
    Cut answer asked x l' outcome calls given where
  run_eq := h.run_eq
  calls_sublist := h.calls_sublist.trans hl
  answers_of_ok := h.answers_of_ok
  answers_of_error := h.answers_of_error
  run_plain := fun plain hplain => by
    obtain ⟨a, more, hrun, hmore, ha⟩ := h.run_plain plain hplain
    exact ⟨a, more, hrun, hmore.trans hl, ha⟩

theorem of_result (a : α) : Cut answer asked (result a) [] (.ok a) [] [] where
  run_eq := by rw [List.append_nil]; rfl
  calls_sublist := List.nil_sublist []
  answers_of_ok := fun _ _ => rfl
  answers_of_error := nofun
  run_plain := fun plain _ => by
    refine ⟨a, [], ?_, List.nil_sublist [], fun a' ha => ⟨Except.ok.inj ha, rfl⟩⟩
    rw [List.append_nil, List.append_nil]
    rfl

/-- **A question that is answered with an error** is the last one. -/
theorem of_error (hanswer : answer asked t = .error e) (hnext : ∀ b, (next b).AsksWithin l) :
    Cut answer asked (ask t next) (t :: l) (.error e) [t] [] where
  run_eq := by rw [run_ask_tryRecording, hanswer]
  calls_sublist := (List.nil_sublist l).cons_cons t
  answers_of_ok := nofun
  answers_of_error := fun e' he => by
    cases he
    rw [answersTo, answersTo, hanswer]
    rfl
  run_plain := fun plain _ => by
    -- the plain run goes on with an answer of its own, from here on like any other run
    obtain ⟨a, more, hrun, hmore⟩ := (hnext (plain asked t)).exists_run plain (asked ++ [t])
    refine ⟨a, more, ?_, hmore.cons_cons t, nofun⟩
    rw [List.singleton_append, List.append_cons]
    exact hrun

/-- **A question that is answered without an error** is followed by those of what comes next. -/
theorem cons (hanswer : answer asked t = .ok b)
    (h : Cut answer (asked ++ [t]) (next b) l outcome calls given) :
    Cut answer asked (ask t next) (t :: l) outcome (t :: calls) (b :: given) where
  run_eq := by
    rw [run_ask_tryRecording, hanswer, List.append_cons asked t calls]
    exact h.run_eq
  calls_sublist := h.calls_sublist.cons_cons t
  answers_of_ok := fun a ha => by rw [answersTo, hanswer, h.answers_of_ok a ha, List.map_cons]
  answers_of_error := fun e he => by
    rw [answersTo, hanswer, h.answers_of_error e he, List.map_cons, List.cons_append]
  run_plain := fun plain hprefix => by
    obtain ⟨hb, hgiven⟩ := List.cons_prefix_cons.1 hprefix
    obtain ⟨a, more, hrun, hmore, ha⟩ := h.run_plain plain hgiven
    refine ⟨a, more, ?_, hmore.cons_cons t, ha⟩
    rw [List.cons_append, List.append_cons, ← hrun, hb]
    rfl

/-- An inquiry fails exactly if one of its questions is answered with an error, and with this error. -/
theorem eq_error_iff (h : Cut answer asked x l outcome calls given) (e : ε) :
    outcome = .error e ↔ .error e ∈ answersTo answer asked calls := by
  cases outcome with
  | ok a =>
    rw [h.answers_of_ok a rfl]
    simp
  | error e' =>
    rw [h.answers_of_error e' rfl]
    simp [eq_comm]

end Cut

/-- **Every inquiry is cut at the first error.** -/
theorem AsksWithin.exists_cut (answer : List Leaf → Leaf → Except ε Bool) (asked : List Leaf)
    (h : x.AsksWithin l) : ∃ outcome calls given, Cut answer asked x l outcome calls given := by
  induction x generalizing l asked with
  | result a => exact ⟨_, _, _, (Cut.of_result a).mono (List.nil_sublist l)⟩
  | ask t next ih =>
    obtain ⟨front, back, rfl, hnext⟩ := h
    have hback : (t :: back).Sublist (front ++ t :: back) := List.sublist_append_right front _
    cases hanswer : answer asked t with
    | error e => exact ⟨_, _, _, (Cut.of_error hanswer hnext).mono hback⟩
    | ok b =>
      obtain ⟨outcome, calls, given, hcut⟩ := ih b (asked ++ [t]) (hnext b)
      exact ⟨_, _, _, (hcut.cons hanswer).mono hback⟩

end Inquiry

namespace Clauses

variable {ε : Type}

/-- **With a predicate that never fails** the evaluation that may fail is the plain one, whatever other
effects the predicate has. -/
theorem tryWitness?_ok {m : Type → Type} [Monad m] [LawfulMonad m] (p : Leaf → m Bool)
    (cs : Clauses Leaf) :
    cs.tryWitness? (fun t => (.ok <$> p t : m (Except ε Bool))) = .ok <$> cs.witness? p := by
  rw [← Inquiry.tryAnsweredBy_witness?, Inquiry.tryAnsweredBy_ok, Inquiry.answeredBy_witness?]

/-- **An evaluation that may fail is the plain one, cut at the first error.** It fails exactly if one of
its questions is answered with an error; this is its first error, and its last question. Beside it
stands the evaluation with any predicate that gives the same answers up to there. Both ask the same
questions in the same order up to there, and if there is no error, they have the same result and ask
nothing else. The truth leaf is asked by neither. -/
theorem tryWitness?_cut_at_error (answer : List Leaf → Leaf → Except ε Bool) (asked : List Leaf)
    (cs : Clauses Leaf) : ∃ outcome calls given,
      (cs.tryWitness? (tryRecording answer)).run asked = (outcome, asked ++ calls) ∧
      (∀ w, outcome = .ok w → answersTo answer asked calls = given.map .ok) ∧
      (∀ e, outcome = .error e → answersTo answer asked calls = given.map .ok ++ [.error e]) ∧
      (∀ e, outcome = .error e ↔ .error e ∈ answersTo answer asked calls) ∧
      (∀ t ∈ calls, t.isTruth = false) ∧
      ∀ plain, given <+: answersTo plain asked calls → ∃ w more,
        (cs.witness? (recording plain)).run asked = (w, asked ++ (calls ++ more)) ∧
        (∀ t ∈ calls ++ more, t.isTruth = false) ∧ ∀ w', outcome = .ok w' → w = w' ∧ more = [] := by
  have hasks := Inquiry.asksWithin_witness? cs
  have isTruth_eq : ∀ {calls : List Leaf},
      calls.Sublist (cs.flatten.filter fun t => !t.isTruth) → ∀ t ∈ calls, t.isTruth = false := by
    intro calls hcalls t ht
    simpa using (List.mem_filter.1 (hcalls.subset ht)).2
  obtain ⟨outcome, calls, given, hcut⟩ := hasks.exists_cut answer asked
  refine ⟨outcome, calls, given, ?_, hcut.answers_of_ok, hcut.answers_of_error, hcut.eq_error_iff,
    isTruth_eq hcut.calls_sublist, fun plain hprefix => ?_⟩
  · rw [← Inquiry.tryAnsweredBy_witness?]
    exact hcut.run_eq
  · obtain ⟨w, more, hrun, hmore, hw⟩ := hcut.run_plain plain hprefix
    refine ⟨w, more, ?_, isTruth_eq hmore, hw⟩
    rw [← Inquiry.answeredBy_witness?]
    exact hrun

/-- The third question is answered with an error, within the second clause. A predicate without errors
that answers the first two in the same way is asked about the third clause, too. -/
theorem tryWitness?_cut_at_error_third : ∃ a b c d : Leaf, ∃ answer plain,
    let cs : Clauses Leaf := [[a], [Token.truth, b, c], [d]]
    (cs.tryWitness? (tryRecording answer)).run [] = (.error "unknown", [a, b, c]) ∧
    [false, true] <+: answersTo plain [] [a, b, c] ∧
    ∃ more, (cs.witness? (recording plain)).run [] = (none, [a, b, c] ++ more) ∧
      ∀ t ∈ [a, b, c] ++ more, t.isTruth = false := by
  let a : Leaf := .literal ⟨1, [], "a", none⟩
  let b : Leaf := .literal ⟨2, [], "b", none⟩
  let c : Leaf := .literal ⟨3, [], "c", none⟩
  let d : Leaf := .literal ⟨4, [], "d", none⟩
  let answer (asked : List Leaf) (_ : Leaf) : Except String Bool :=
    match asked.length with
    | 0 => .ok false
    | 1 => .ok true
    | _ => .error "unknown"
  let plain (asked : List Leaf) (_ : Leaf) : Bool := asked.length == 1
  let cs : Clauses Leaf := [[a], [Token.truth, b, c], [d]]
  have hcut : (cs.tryWitness? (tryRecording answer)).run [] = (.error "unknown", [a, b, c]) := rfl
  have hplain : (cs.witness? (recording plain)).run [] = (none, [a, b, c, d]) := rfl
  obtain ⟨outcome, calls, given, hrun, -, herror, -, -, hbeside⟩ :=
    tryWitness?_cut_at_error answer [] cs
  obtain ⟨rfl, rfl⟩ : .error "unknown" = outcome ∧ [a, b, c] = calls :=
    Prod.mk.inj (hcut.symm.trans hrun)
  have hgiven : ([false, true].map .ok : List (Except String Bool)) = given.map .ok :=
    List.append_cancel_right (herror "unknown" rfl)
  obtain rfl := (List.map_inj_right fun _ _ => Except.ok.inj).1 hgiven
  obtain ⟨w, more, hrun', htruth, -⟩ := hbeside plain ⟨[false], rfl⟩
  obtain ⟨rfl, -⟩ : none = w ∧ _ := Prod.mk.inj (hplain.symm.trans hrun')
  exact ⟨a, b, c, d, answer, plain, hcut, ⟨[false], rfl⟩, more, hrun', htruth⟩

end Clauses

end PositiveLogic
