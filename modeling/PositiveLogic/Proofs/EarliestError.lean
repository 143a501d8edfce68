import PositiveLogic.Proofs.Clashes
import PositiveLogic.Proofs.DepthLimit

/-!
# Errors at the earliest token

The parser does not go on after a token that no accepted list has at this place, and it does not
stop in front of one that some accepted list has there.

* `Completable m ts`: the tokens `ts` can be completed to a list that is accepted under the limit
  `m`.
* `State.exists_finish` and `completable_of_run`: what was read can be completed. If an operand is
  expected, a literal will do, and then the open groups are closed one by one.
* `not_completable_of_step`: behind a token that fails under every limit nothing helps, because
  every limit that lets the tokens in front of it be read leads to the same state.
* `State.run_eq_error`: a run that fails is a run up to some token, and a step that fails at it.
* `EarliestAt m ts err i`: what it means for an error to be found at a place, neither too early nor
  too late.
* `error_is_earliest`: so an error that points at a token points at the first one behind which the
  list cannot be completed, and an error at the end is found in a list that goes on somehow.
-/

namespace PositiveLogic

namespace Formula

variable {α : Type} {m : Nat} {ts us : List (Token α)} {t : Token α} {err : ParseError α}

/-- Some list that begins with these tokens is accepted. -/
def Completable (m : Nat) (ts : List (Token α)) : Prop :=
  ∃ us e, ofTokens m (ts ++ us) = .ok e

/-! ## What can be completed -/

namespace State

/-- Behind an operand it is enough to close the open groups. -/
theorem exists_finish (m index depth : Nat) (outer : List (Pending (Token α)))
    (inner : Pending (Token α)) (operand : Formula (Token α)) :
    ∃ s e, run m ⟨index, depth, outer, inner, some operand⟩
      (List.replicate outer.length .closing) = .ok s ∧ s.finish = .ok e := by
  induction outer generalizing index depth inner operand with
  | nil => exact ⟨_, inner.sum operand, rfl, rfl⟩
  | cons around outer ih =>
    obtain ⟨s, e, hrun, hfinish⟩ := ih (index + 1) (depth - 1) around (inner.sum operand)
    refine ⟨s, e, ?_, hfinish⟩
    rw [List.length_cons, List.replicate_succ, run_of_step rfl]
    exact hrun

/-- **Every state can be finished** without opening another group. -/
theorem exists_run_finish [Nonempty α] (m : Nat) (s : State α) :
    ∃ us s' e, s.run m us = .ok s' ∧ s'.finish = .ok e := by
  obtain ⟨index, depth, outer, inner, operand⟩ := s
  cases operand with
  | some operand =>
    obtain ⟨s', e, hrun, hfinish⟩ := exists_finish m index depth outer inner operand
    exact ⟨_, s', e, hrun, hfinish⟩
  | none =>
    obtain ⟨a⟩ := ‹Nonempty α›
    obtain ⟨s', e, hrun, hfinish⟩ :=
      exists_finish m (index + 1) depth outer inner (leaf (.literal a))
    refine ⟨.literal a :: List.replicate outer.length .closing, s', e, ?_, hfinish⟩
    rw [run_of_step rfl]
    exact hrun

end State

/-- **What was read can be completed**, under the same limit. -/
theorem completable_of_run [Nonempty α] {s : State α} (h : State.run m {} ts = .ok s) :
    Completable m ts := by
  obtain ⟨us, s', e, hrun, hfinish⟩ := s.exists_run_finish m
  refine ⟨us, e, ?_⟩
  rw [ofTokens, State.run_append_of_ok h, hrun]
  exact hfinish

theorem Completable.exists_ne_nil (h : Completable m ts) (herr : ofTokens m ts = .error err) :
    ∃ us, us ≠ [] ∧ ∃ e, ofTokens m (ts ++ us) = .ok e := by
  obtain ⟨us, e, he⟩ := h
  refine ⟨us, ?_, e, he⟩
  rintro rfl
  rw [List.append_nil, herr] at he
  cases he

/-! ## What cannot be completed -/

/-- **Behind a token that fails under every limit nothing helps.** -/
theorem not_completable_of_step {s : State α} (h : State.run m {} ts = .ok s)
    (hstep : ∀ m', s.step m' t = .error err) (m' : Nat) : ¬ Completable m' (ts ++ [t]) := by
  rintro ⟨us, e, he⟩
  rw [ofTokens, List.append_assoc, State.run_append] at he
  cases hrun : State.run m' {} ts with
  | error fault =>
    rw [hrun] at he
    cases he
  | ok s' =>
    -- both limits let the tokens be read, so they lead to the same state
    obtain rfl := State.run_unique h hrun
    have hstop : s.run m' (t :: us) = .error err := by rw [State.run, hstep]
    rw [hrun, List.singleton_append, Except.bind, hstop] at he
    cases he

/-! ## Where an error is found -/

/-- **A run that fails** is a run up to some token, and a step that fails at it. -/
theorem State.run_eq_error {s : State α} (h : s.run m ts = .error err) :
    ∃ us t vs s', ts = us ++ t :: vs ∧ s.run m us = .ok s' ∧ s'.step m t = .error err := by
  induction ts generalizing s with
  | nil => cases h
  | cons t ts ih =>
    rw [run] at h
    split at h
    · next s₁ hstep =>
      obtain ⟨us, u, vs, s', rfl, hrun, hfail⟩ := ih h
      exact ⟨t :: us, u, vs, s', rfl, (run_of_step hstep).trans hrun, hfail⟩
    · next hstep =>
      cases h
      exact ⟨[], t, ts, s, rfl, rfl, hstep⟩

/-- A list whose tokens are all taken lacks an operand, or the end of a group. -/
theorem State.finish_eq_error {s : State α} (h : s.finish = .error err) :
    err = .unexpectedEnd ∨ err = .expectedClose s.index := by
  obtain ⟨index, depth, outer, inner, operand⟩ := s
  cases operand with
  | none =>
    cases h
    exact .inl rfl
  | some operand =>
    cases outer with
    | nil => cases h
    | cons around outer =>
      cases h
      exact .inr rfl

theorem State.index_eq_length {s : State α} (h : State.run m {} ts = .ok s) :
    s.index = ts.length := by
  simpa using ((State.Reads.start m).run h).index_eq

/-- **The two ways to fail**: at a token, or at the end. -/
theorem ofTokens_eq_error (h : ofTokens m ts = .error err) :
    (∃ us t vs s, ts = us ++ t :: vs ∧ State.run m {} us = .ok s ∧ s.step m t = .error err) ∨
    ∃ s, State.run m {} ts = .ok s ∧ (err = .unexpectedEnd ∨ err = .expectedClose ts.length) := by
  rw [ofTokens] at h
  split at h
  · next s hrun =>
    refine .inr ⟨s, hrun, ?_⟩
    rw [← State.index_eq_length hrun]
    exact State.finish_eq_error h
  · next hrun =>
    cases h
    exact .inl (State.run_eq_error hrun)

/-- An error of a list that is parsed under the limit `m` points at the place `i`, and it could be
found neither in front of this place nor behind it. -/
structure EarliestAt (m : Nat) (ts : List (Token α)) (err : ParseError α) (i : Nat) : Prop where
  le_length : i ≤ ts.length
  /-- Behind the list only the end of a group can be missing. -/
  eq_expectedClose : i = ts.length → err = .expectedClose i
  /-- The tokens in front of the place can be completed under the same limit. -/
  completable : Completable m (ts.take i)
  /-- With the token at the place they cannot be completed under any limit. -/
  not_completable : i < ts.length → ∀ limits : Limits,
    ¬ Completable limits.maxDepth (ts.take (i + 1))
  /-- If the error shows a token, it is the one at the place. -/
  found : ∀ t, err.found? = some t → ts[i]? = some t

theorem earliestAt_of_step [Nonempty α] {vs : List (Token α)} {s : State α}
    (hrun : State.run m {} us = .ok s) (hstep : s.step m t = .error err)
    (hindex : err.index? = some us.length) : EarliestAt m (us ++ t :: vs) err us.length := by
  have hlt : us.length < (us ++ t :: vs).length := by simp
  obtain rfl | ⟨-, hfound, hfail⟩ := State.error_of_step hstep
  · cases hindex
  · refine ⟨hlt.le, fun heq => absurd heq hlt.ne, ?_, fun _ limits => ?_, fun u hu => ?_⟩
    · rw [List.take_left]
      exact completable_of_run hrun
    · have htake : (us ++ t :: vs).take (us.length + 1) = us ++ [t] := by simp [List.take_append]
      rw [htake]
      exact not_completable_of_step hrun hfail limits.maxDepth
    · rw [hfound u hu]
      simp

theorem earliestAt_of_end [Nonempty α] {s : State α} (hrun : State.run m {} ts = .ok s) :
    EarliestAt m ts (.expectedClose ts.length) ts.length where
  le_length := Nat.le_refl _
  eq_expectedClose _ := rfl
  completable := by
    rw [List.take_length]
    exact completable_of_run hrun
  not_completable hlt := absurd hlt (Nat.lt_irrefl _)
  found := nofun

/-- **The parser reports the earliest possible error.** An error that points at a place points into
the list, or behind it where only the end of a group is missing. The tokens in front of the place
begin some list that is accepted under the same limits, and with the token at the place no list that
is accepted under any limits begins. An error at the end of the list means that the list is the
beginning of a longer one that is accepted under the same limits. -/
theorem error_is_earliest [Nonempty α] (limits : Limits) (ts : List (Token α)) (err : ParseError α)
    (h : ofTokens limits.maxDepth ts = .error err) :
    (∀ i, err.index? = some i → EarliestAt limits.maxDepth ts err i) ∧
    (err = .unexpectedEnd ∨ err = .expectedClose ts.length →
      ∃ us, us ≠ [] ∧ ∃ e, ofTokens limits.maxDepth (ts ++ us) = .ok e) := by
  obtain ⟨us, t, vs, s, rfl, hrun, hstep⟩ | ⟨s, hrun, hend⟩ := ofTokens_eq_error h
  · have hplace : ∀ i, err.index? = some i → i = us.length := by
      intro i hi
      obtain rfl | ⟨hindex, -⟩ := State.error_of_step hstep
      · cases hi
      · rw [← State.index_eq_length hrun]
        exact Option.some.inj (hi.symm.trans hindex)
    refine ⟨fun i hi => ?_, fun hend => ?_⟩
    · obtain rfl := hplace i hi
      exact earliestAt_of_step hrun hstep hi
    · -- the error points at a token or at none, so it is not the one behind the last
      obtain rfl | rfl := hend
      · obtain hdeep | ⟨hindex, -⟩ := State.error_of_step hstep
        · cases hdeep
        · cases hindex
      · have hlength := hplace _ rfl
        simp at hlength
  · refine ⟨fun i hi => ?_, fun _ => (completable_of_run hrun).exists_ne_nil h⟩
    obtain rfl | rfl := hend
    · cases hi
    · obtain rfl : ts.length = i := Option.some.inj hi
      exact earliestAt_of_end hrun

/-- A group that ends where an operand is expected, in front of groups that nest too deep, and a
group that does not end. -/
theorem error_is_earliest_group : ∃ ts us : List (Token Char),
    ts = [.opening, .literal 'a', .and, .closing, .opening, .opening] ∧
    us = [.opening, .literal 'a'] ∧
    ofTokens 1 ts = .error (.unexpectedToken 3 .closing) ∧
    Completable 1 (ts.take 3) ∧
    (∀ limits : Limits, ¬ Completable limits.maxDepth (ts.take 4)) ∧
    ofTokens 1 us = .error (.expectedClose 2) ∧
    ∃ vs, vs ≠ [] ∧ ∃ e, ofTokens 1 (us ++ vs) = .ok e := by
  refine ⟨_, _, rfl, rfl, rfl, ?_, ?_, rfl, ?_⟩
  · exact ((error_is_earliest ⟨1, 0⟩ _ (.unexpectedToken 3 .closing) rfl).1 3 rfl).completable
  · exact ((error_is_earliest ⟨1, 0⟩ _ (.unexpectedToken 3 .closing) rfl).1 3
      rfl).not_completable (by decide)
  · exact (error_is_earliest ⟨1, 0⟩ _ (.expectedClose 2) rfl).2 (.inr rfl)

end Formula

end PositiveLogic
