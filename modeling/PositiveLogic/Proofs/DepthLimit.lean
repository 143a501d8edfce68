import PositiveLogic.Proofs.Parsing

/-!
# The limit on the nesting of groups

The parser asks for the limit at one place only, in front of an opening token. So a narrower limit
cannot lead it anywhere else: it takes the same steps as a wider one, or it stops there.

* `State.step_of_le`, `State.run_of_le`, `ofTokens_of_le`: of two limits the narrower one gives what
  the wider one gives, or groups nest too deep for it.
* `State.run_unique`: what is read of a list does not depend on the limit.
* `depth_limit_only_cuts`: a result that is no cut stays under every wider limit, and a list that is
  accepted at all is accepted exactly under the limits that its groups keep to.
-/

namespace PositiveLogic

namespace Formula

variable {α : Type} {m m' : Nat}

namespace State

/-- Under the narrower of two limits **a step** is the same, or it opens a group too many. -/
theorem step_of_le (h : m ≤ m') (s : State α) (t : Token α) :
    s.step m t = s.step m' t ∨ s.step m t = .error (.tooDeep m) := by
  obtain ⟨index, depth, outer, inner, operand⟩ := s
  cases operand with
  | some operand => exact .inl rfl
  | none =>
    cases t with
    | opening =>
      simp only [step, stepOperand]
      by_cases hdepth : m ≤ depth
      · exact .inr (if_pos hdepth)
      · left
        rw [if_neg hdepth, if_neg (by omega)]
    | _ => exact .inl rfl

/-- Under the narrower of two limits **a run** is the same, or it ends in front of a group too
many. -/
theorem run_of_le (h : m ≤ m') (s : State α) (ts : List (Token α)) :
    s.run m ts = s.run m' ts ∨ s.run m ts = .error (.tooDeep m) := by
  induction ts generalizing s with
  | nil => exact .inl rfl
  | cons t ts ih =>
    obtain hstep | hstep := step_of_le h s t
    · simp only [run, hstep]
      cases s.step m' t with
      | ok s' => exact ih s'
      | error e => exact .inl rfl
    · right
      simp only [run, hstep]

/-- **Two limits that let a list be read let it be read alike.** -/
theorem run_unique {s s₁ s₂ : State α} {ts : List (Token α)} (h₁ : s.run m ts = .ok s₁)
    (h₂ : s.run m' ts = .ok s₂) : s₁ = s₂ := by
  have hsame : s.run m ts = s.run m' ts := by
    obtain hle | hle := Nat.le_total m m'
    · exact (run_of_le hle s ts).resolve_right (by simp [h₁])
    · exact ((run_of_le hle s ts).resolve_right (by simp [h₂])).symm
  simpa [h₁, h₂] using hsame

end State

/-- Under the narrower of two limits the result is the same, or groups nest too deep. -/
theorem ofTokens_of_le (h : m ≤ m') (ts : List (Token α)) :
    ofTokens m ts = ofTokens m' ts ∨ ofTokens m ts = .error (.tooDeep m) := by
  unfold ofTokens
  obtain hrun | hrun := State.run_of_le h {} ts
  · left
    rw [hrun]
  · right
    rw [hrun]

/-- A list that is accepted under some limit is cut off under every limit that its groups do not
keep to. -/
theorem ofTokens_eq_tooDeep {ts : List (Token α)} {e : Formula (Token α)}
    (h : ofTokens m' ts = .ok e) (hm : m < Token.nesting ts) :
    ofTokens m ts = .error (.tooDeep m) := by
  obtain ⟨-, hle⟩ := derives_of_ofTokens h
  have hlimits : m ≤ m' := by omega
  obtain hsame | hdeep := ofTokens_of_le hlimits ts
  · obtain ⟨-, hle⟩ := derives_of_ofTokens (hsame.trans h)
    omega
  · exact hdeep

/-- **The limit on the nesting of groups only cuts off.** A result that is no cut, be it a formula or
another error, stays the same under every wider limit. A list that is accepted under some limit is
accepted, with the same formula, under every limit that its groups keep to, and is cut off by every
other one. -/
theorem depth_limit_only_cuts (ts : List (Token α)) :
    (∀ m₁ m₂, m₁ ≤ m₂ → ofTokens m₁ ts ≠ .error (.tooDeep m₁) → ofTokens m₂ ts = ofTokens m₁ ts) ∧
    ∀ m₀ e, ofTokens m₀ ts = .ok e → ∀ m,
      (Token.nesting ts ≤ m → ofTokens m ts = .ok e) ∧
      (m < Token.nesting ts → ofTokens m ts = .error (.tooDeep m)) := by
  refine ⟨fun m₁ m₂ hle hcut => ?_, fun m₀ e h m => ⟨fun hm => ?_, fun hm => ?_⟩⟩
  · exact ((ofTokens_of_le hle ts).resolve_right hcut).symm
  · obtain ⟨hderives, -⟩ := derives_of_ofTokens h
    exact ofTokens_of_derives hderives hm
  · exact ofTokens_eq_tooDeep h hm

/-- Groups behind each other and inside of each other; and a list whose error no limit changes. -/
theorem depth_limit_only_cuts_siblings : ∃ ts us : List (Token Char), ∃ e,
    ts = [.opening, .literal 'a', .closing, .and, .opening, .literal 'b', .or, .opening,
      .literal 'c', .closing, .closing] ∧
    us = [.opening, .literal 'a', .literal 'b', .opening, .opening] ∧
    Token.nesting ts = 2 ∧ ofTokens 5 ts = .ok e ∧ ofTokens 2 ts = .ok e ∧
    ofTokens 1 ts = .error (.tooDeep 1) ∧
    ofTokens 1 us = .error (.expectedClose 2) ∧ ofTokens 7 us = .error (.expectedClose 2) := by
  refine ⟨_, _, _, rfl, rfl, rfl, rfl, ?_, ?_, rfl, ?_⟩
  · exact ((depth_limit_only_cuts _).2 5 _ rfl 2).1 (by decide)
  · exact ((depth_limit_only_cuts _).2 5 _ rfl 1).2 (by decide)
  · exact (depth_limit_only_cuts _).1 1 7 (by decide) nofun

end Formula

end PositiveLogic
