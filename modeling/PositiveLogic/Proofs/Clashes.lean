import PositiveLogic.Proofs.Neighbours
import PositiveLogic.Proofs.RoundTrip

/-!
# The parser at a clash

The test of neighbours is never ahead of the parser: where it finds a clash, the parser has stopped
in front of the second of the two tokens or stops there. So nothing is accepted or refused because
of the test.

* `State.Behind s before`: the state `s` fits the token in front of it. It expects an operand where
  one may stand, and it has read one where the token ends one. Every step leads to such a state
  (`State.behind_of_step`), and from such a state no step leads over a clash
  (`State.step_of_clash`).
* `State.error_of_step`: what the error of a step can say. If groups do not nest too deep, it points
  at the token, and the step fails in the same way under every limit.
* `Formula.check_never_ahead`: the test changes nothing of what is accepted, and its error is not
  in front of the one of the parser.
-/

namespace PositiveLogic

namespace ParseError

variable {α : Type}

/-- The place in the list of tokens that an error points at. -/
def index? : ParseError α → Option Nat
  | expectedClose index => some index
  | unexpectedToken index _ => some index
  | unexpectedTrailing index _ => some index
  | unexpectedEnd => none
  | tooDeep _ => none

/-- The token that an error shows. -/
def found? : ParseError α → Option (Token α)
  | unexpectedToken _ found => some found
  | unexpectedTrailing _ found => some found
  | _ => none

/-- An error that is found at some place at the latest: groups nest too deep, or the error points at
this place or at one in front of it. -/
def FoundBy (maxDepth place : Nat) (e : ParseError α) : Prop :=
  e = .tooDeep maxDepth ∨ ∃ i, e.index? = some i ∧ i ≤ place

theorem FoundBy.mono {maxDepth place place' : Nat} {e : ParseError α} (h : e.FoundBy maxDepth place)
    (hle : place ≤ place') : e.FoundBy maxDepth place' :=
  h.imp_right fun ⟨i, hi, hplace⟩ => ⟨i, hi, hplace.trans hle⟩

end ParseError

theorem Token.le_index_of_check {α : Type} {index : Nat} {before : Option (Token α)}
    {ts : List (Token α)} {c : AdjacencyError}
    (h : checkNeighboursFrom index before ts = .error c) : index ≤ c.index := by
  induction ts generalizing index before with
  | nil => cases h
  | cons t ts ih =>
    rw [checkNeighboursFrom] at h
    split at h
    · cases h
      exact Nat.le_refl index
    · exact (Nat.le_succ index).trans (ih h)

namespace Formula

variable {α : Type}

namespace State

variable {m : Nat} {s s' : State α} {before : Option (Token α)} {t : Token α}
  {ts : List (Token α)}

/-! ## One step -/

/-- A state fits the token in front of it. -/
def Behind (s : State α) (before : Option (Token α)) : Prop :=
  match s.operand with
  | none => Token.LeadsOperand before
  | some _ => ∃ last, before = some last ∧ Token.EndsOperand last

theorem behind_start : Behind ({} : State α) none := trivial

/-- **A step leads behind the token** that it takes. -/
theorem behind_of_step (h : s.step m t = .ok s') :
    s'.Behind (some t) ∧ s'.index = s.index + 1 := by
  obtain ⟨index, depth, outer, inner, operand⟩ := s
  cases operand with
  | none =>
    cases t with
    | literal a =>
      cases h
      exact ⟨⟨_, rfl, trivial⟩, rfl⟩
    | opening =>
      simp only [step, stepOperand] at h
      split at h
      · cases h
      · cases h
        exact ⟨trivial, rfl⟩
    | _ => cases h
  | some operand =>
    cases t with
    | and | or =>
      cases h
      exact ⟨trivial, rfl⟩
    | closing =>
      cases outer with
      | nil => cases h
      | cons around outer =>
        cases h
        exact ⟨⟨_, rfl, trivial⟩, rfl⟩
    | _ => cases outer <;> cases h

/-- **A step that fails** opens a group too many, or it points at the token it should take, shows
no other one, and fails in the same way under every limit. -/
theorem error_of_step {e : ParseError α} (h : s.step m t = .error e) :
    e = .tooDeep m ∨ e.index? = some s.index ∧ (∀ u, e.found? = some u → u = t) ∧
      ∀ m', s.step m' t = .error e := by
  obtain ⟨index, depth, outer, inner, operand⟩ := s
  cases operand with
  | none =>
    cases t with
    | literal a => cases h
    | opening =>
      simp only [step, stepOperand] at h
      split at h
      · cases h
        exact .inl rfl
      · cases h
    | _ =>
      cases h
      exact .inr ⟨rfl, fun u hu => (Option.some.inj hu).symm, fun m' => rfl⟩
  | some operand =>
    cases t with
    | and | or => cases h
    | closing =>
      cases outer with
      | nil =>
        cases h
        exact .inr ⟨rfl, fun u hu => (Option.some.inj hu).symm, fun m' => rfl⟩
      | cons around outer => cases h
    | _ =>
      cases outer with
      | nil =>
        cases h
        exact .inr ⟨rfl, fun u hu => (Option.some.inj hu).symm, fun m' => rfl⟩
      | cons around outer =>
        cases h
        exact .inr ⟨rfl, by rintro u ⟨⟩, fun m' => rfl⟩

/-- A step that fails points at the token it should take, unless groups nest too deep. -/
theorem foundBy_of_step {e : ParseError α} (h : s.step m t = .error e) : e.FoundBy m s.index := by
  obtain hdeep | ⟨hindex, -⟩ := error_of_step h
  · exact .inl hdeep
  · exact .inr ⟨s.index, hindex, Nat.le_refl s.index⟩

/-- **No step leads over a clash**, and its error points at the second token. -/
theorem step_of_clash (hs : s.Behind before) {clash : Clash}
    (h : Token.clash? before t = some clash) :
    ∃ e, s.step m t = .error e ∧ e.index? = some s.index := by
  obtain ⟨index, depth, outer, inner, operand⟩ := s
  cases t with
  | literal a =>
    rw [Token.clash?_literal] at h
    cases h
  | closing =>
    rw [Token.clash?_closing] at h
    cases h
  | opening =>
    cases operand with
    | none =>
      rw [Token.clash?_opening hs] at h
      cases h
    | some operand =>
      cases outer with
      | nil => exact ⟨_, rfl, rfl⟩
      | cons around outer => exact ⟨_, rfl, rfl⟩
  | and | or =>
    cases operand with
    | none => exact ⟨_, rfl, rfl⟩
    | some operand =>
      obtain ⟨last, rfl, hlast⟩ := hs
      rw [Token.clash?_operator hlast rfl] at h
      cases h

/-! ## A run -/

/-- **A run does not get past a clash.** -/
theorem run_of_clash (hs : s.Behind before) {c : AdjacencyError}
    (h : Token.checkNeighboursFrom s.index before ts = .error c) :
    ∃ e, s.run m ts = .error e ∧ e.FoundBy m c.index := by
  induction ts generalizing s before with
  | nil => cases h
  | cons t ts ih =>
    have hle := Token.le_index_of_check h
    rw [Token.checkNeighboursFrom] at h
    rw [run]
    cases hclash : Token.clash? before t with
    | some clash =>
      obtain ⟨e, hstep, hindex⟩ := step_of_clash (m := m) hs hclash
      rw [hstep]
      exact ⟨e, rfl, .inr ⟨s.index, hindex, hle⟩⟩
    | none =>
      rw [hclash] at h
      cases hstep : s.step m t with
      | error e => exact ⟨e, rfl, (foundBy_of_step hstep).mono hle⟩
      | ok s' =>
        obtain ⟨hbehind, hindex⟩ := behind_of_step hstep
        rw [← hindex] at h
        exact ih hbehind h

end State

/-! ## Texts and lists of tokens -/

/-- The numbers of the literals have no say in whether a text is read with the test. -/
theorem exists_readChecked_iff {d : Dialect} {limits : Limits} (next next' : Nat) (s : String)
    (w : Formula (Token Atom)) :
    (∃ e n, readChecked d limits next s = .ok (e, n) ∧ e.map Token.written = w) ↔
      ∃ e n, read d limits next' s = .ok (e, n) ∧ e.map Token.written = w := by
  simp only [readChecked_eq_ok_iff, exists_read_iff]

/-- **The test changes nothing of what is accepted and is never ahead of the parser.** A text is read
with the test exactly if it is read without it, and gives the same formula up to the numbers of its
literals, because every list of tokens that is parsed under any limits passes the test. A list that
does not pass it is not parsed under any limits either: groups nest too deep, or the error points at
the clash or in front of it. -/
theorem check_never_ahead :
    (∀ (d : Dialect) (limits : Limits) (next next' : Nat) (s : String) (w : Formula (Token Atom)),
      (∃ e n, readChecked d limits next s = .ok (e, n) ∧ e.map Token.written = w) ↔
        ∃ e n, read d limits next' s = .ok (e, n) ∧ e.map Token.written = w) ∧
    (∀ (limits : Limits) (ts : List (Token α)) (e : Formula (Token α)),
      ofTokens limits.maxDepth ts = .ok e → Token.checkNeighbours ts = .ok ()) ∧
    ∀ (limits : Limits) (ts : List (Token α)) (c : AdjacencyError),
      Token.checkNeighbours ts = .error c →
        ∃ e, ofTokens limits.maxDepth ts = .error e ∧ e.FoundBy limits.maxDepth c.index := by
  refine ⟨fun _ _ => exists_readChecked_iff, fun limits ts e h => ?_, fun limits ts c h => ?_⟩
  · exact (derives_of_ofTokens h).1.checkNeighbours_eq_ok
  · obtain ⟨e, hrun, hfound⟩ := State.run_of_clash (m := limits.maxDepth) State.behind_start h
    refine ⟨e, ?_, hfound⟩
    rw [ofTokens, hrun]

/-- A clash behind the end of a formula, and a clash behind a group that is too deep. -/
theorem check_never_ahead_trailing :
    (∃ e n, readChecked {} ⟨1, 2⟩ 1 "(a||b)&&c" = .ok (e, n)) ∧
    (∃ e, ofTokens 0 [Token.literal 'a', .closing, .literal 'b', .opening] = .error e ∧
      e.FoundBy 0 3) ∧
    ∃ e, ofTokens 1 [Token.opening, .opening, .or, .literal 'a'] = .error e ∧ e.FoundBy 1 2 := by
  have hread : read {} ⟨1, 2⟩ 7 "(a||b)&&c" =
      .ok (.and (.or (.leaf (.literal ⟨7, [], "a", none⟩)) (.leaf (.literal ⟨8, [], "b", none⟩)))
        (.leaf (.literal ⟨9, [], "c", none⟩)), 10) := by cbv
  obtain ⟨hsame, -, hclash⟩ := check_never_ahead (α := Char)
  obtain ⟨e, n, hchecked, -⟩ := (hsame {} ⟨1, 2⟩ 1 7 _ _).2 ⟨_, _, hread, rfl⟩
  exact ⟨⟨e, n, hchecked⟩, hclash ⟨0, 0⟩ _ ⟨.misplacedOpen, 3⟩ rfl,
    hclash ⟨1, 0⟩ _ ⟨.operatorAfterOpen, 2⟩ rfl⟩

end Formula

end PositiveLogic
