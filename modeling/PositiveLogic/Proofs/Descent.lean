import Mathlib.Logic.Function.Iterate
import PositiveLogic.Proofs.Clashes
import PositiveLogic.Proofs.FewestGroups

/-!
# The parser as a descent

`Formula.ofTokens` keeps what is read of the groups that are open. A recursive descent keeps it in its
calls: three functions for the three kinds of phrases call each other, with a cursor on the tokens and a
counter of the open groups. `Descent` is this descent, with the calls that have not returned as frames on
a stack.

* `Descent.Sound`: the counter is the number of groups that were opened and not closed in front of the
  cursor, it is within the limit, and the stack has a frame for each of these groups. Every step keeps
  it (`Descent.Sound.step`).
* `Descent.Reaches.lt_cursor`: a call that returns has read a token.
* `Descent.leads_run`: the descent follows the states of the parser, with at most three steps for a
  token, so it comes to an end with the answer of `Formula.ofTokens` (`Descent.exists_finished`).
* `Descent.bookkeeping`: all of this for the descent on a list of tokens.
-/

namespace PositiveLogic

namespace Token

variable {α : Type}

/-- Whether a token closes a group. -/
def closes : Token α → Bool
  | closing => true
  | _ => false

/-- The number of groups that are closed in a list of tokens. -/
def closings (ts : List (Token α)) : Nat := ts.countP closes

end Token

namespace Formula

variable {α : Type}

/-- What waits for the result of a call. -/
inductive Frame (α : Type)
  /-- A group waits for the expression in it. -/
  | group
  /-- A term waits for its next factor; it has read the conjunction in front of it, if there is one. -/
  | term (before : Option (Formula (Token α)))
  /-- An expression waits for its next term; it has read the disjunction in front of it, if there is
  one. -/
  | expr (before : Option (Formula (Token α)))

/-- Whether a frame is a group's. -/
def Frame.isGroup : Frame α → Bool
  | .group => true
  | _ => false

/-- What a descent does next. -/
inductive Task (α : Type)
  /-- It enters the function for a kind of phrase. -/
  | enter (p : Phrase)
  /-- It returns a phrase that was read to the frame on top. -/
  | give (e : Formula (Token α))
  /-- Nothing: the tokens were read or refused. -/
  | finished (answer : Except (ParseError α) (Formula (Token α)))

/-- A descent on its way. -/
structure Descent (α : Type) where
  /-- The number of tokens that were read. -/
  cursor : Nat
  /-- The counter of the open groups. -/
  depth : Nat
  /-- The calls that wait, the innermost one on top. -/
  stack : List (Frame α)
  task : Task α

namespace Descent

variable {m n i depth : Nat} {ts us : List (Token α)} {t : Token α} {e : Formula (Token α)}
  {σ : List (Frame α)} {p : Phrase} {c c' c'' : Descent α}

/-! ## Steps -/

/-- A phrase joined to what was read in front of it. -/
def joined (op : Formula (Token α) → Formula (Token α) → Formula (Token α)) :
    Option (Formula (Token α)) → Formula (Token α) → Formula (Token α)
  | none, e => e
  | some before, e => op before e

/-- Read a literal, or open a group. -/
def enterFactor (m : Nat) (ts : List (Token α)) (i depth : Nat) (σ : List (Frame α)) : Descent α :=
  match ts[i]? with
  | none => ⟨i, depth, σ, .finished (.error .unexpectedEnd)⟩
  | some .opening =>
    if m ≤ depth then ⟨i, depth, σ, .finished (.error (.tooDeep m))⟩
    else ⟨i + 1, depth + 1, .group :: σ, .enter .expr⟩
  | some (.literal a) => ⟨i + 1, depth, σ, .give (leaf (.literal a))⟩
  | some t => ⟨i, depth, σ, .finished (.error (.unexpectedToken i t))⟩

/-- Hand a phrase to the frame on top. A term goes on with the factor behind an `and` and an expression
with the term behind an `or`, a group is closed, and with no frame left the tokens have to end. -/
def giveTo (ts : List (Token α)) (i depth : Nat) (e : Formula (Token α)) :
    List (Frame α) → Descent α
  | [] =>
    match ts[i]? with
    | none => ⟨i, depth, [], .finished (.ok e)⟩
    | some t => ⟨i, depth, [], .finished (.error (.unexpectedTrailing i t))⟩
  | .group :: σ =>
    match ts[i]? with
    | some .closing => ⟨i + 1, depth - 1, σ, .give e⟩
    | _ => ⟨i, depth - 1, .group :: σ, .finished (.error (.expectedClose i))⟩
  | .term before :: σ =>
    match ts[i]? with
    | some .and => ⟨i + 1, depth, .term (some (joined and before e)) :: σ, .enter .factor⟩
    | _ => ⟨i, depth, σ, .give (joined and before e)⟩
  | .expr before :: σ =>
    match ts[i]? with
    | some .or => ⟨i + 1, depth, .expr (some (joined or before e)) :: σ, .enter .term⟩
    | _ => ⟨i, depth, σ, .give (joined or before e)⟩

/-- One step of a descent. A finished one stays as it is. -/
def step (m : Nat) (ts : List (Token α)) : Descent α → Descent α
  | ⟨i, depth, σ, .enter .factor⟩ => enterFactor m ts i depth σ
  | ⟨i, depth, σ, .enter .term⟩ => ⟨i, depth, .term none :: σ, .enter .factor⟩
  | ⟨i, depth, σ, .enter .expr⟩ => ⟨i, depth, .expr none :: σ, .enter .term⟩
  | ⟨i, depth, σ, .give e⟩ => giveTo ts i depth e σ
  | ⟨i, depth, σ, .finished answer⟩ => ⟨i, depth, σ, .finished answer⟩

/-- A descent in front of the tokens. -/
def initial : Descent α := ⟨0, 0, [], .enter .expr⟩

/-- At most `n` steps lead from one descent to another one. -/
def Leads (m : Nat) (ts : List (Token α)) (n : Nat) (c c' : Descent α) : Prop :=
  ∃ k ≤ n, (step m ts)^[k] c = c'

theorem Leads.one (m : Nat) (ts : List (Token α)) (c : Descent α) : Leads m ts 1 c (c.step m ts) :=
  ⟨1, Nat.le_refl 1, rfl⟩

theorem Leads.mono {n' : Nat} (h : Leads m ts n c c') (hn : n ≤ n') : Leads m ts n' c c' := by
  obtain ⟨k, hk, hc⟩ := h
  exact ⟨k, hk.trans hn, hc⟩

theorem Leads.trans {n' : Nat} (h : Leads m ts n c c') (h' : Leads m ts n' c' c'') :
    Leads m ts (n + n') c c'' := by
  obtain ⟨k, hk, rfl⟩ := h
  obtain ⟨k', hk', rfl⟩ := h'
  exact ⟨k' + k, by omega, Function.iterate_add_apply _ _ _ _⟩

/-- Steps lead from one descent to another one. -/
def Reaches (m : Nat) (ts : List (Token α)) (c c' : Descent α) : Prop :=
  ∃ k, (step m ts)^[k] c = c'

/-- A call that is entered at `c` has returned `e` at `c'`: the stack is again the one that it found. -/
structure Returns (m : Nat) (ts : List (Token α)) (c c' : Descent α) (e : Formula (Token α)) :
    Prop where
  reaches : Reaches m ts c c'
  entered : ∃ p, c.task = .enter p
  task_eq : c'.task = .give e
  stack_eq : c'.stack = c.stack

/-! ## The counter and the stack -/

/-- What the cursor and the counter say of each other: the counter is the number of groups that were
opened and not closed in front of the cursor. -/
structure Balanced (m : Nat) (ts : List (Token α)) (i depth : Nat) : Prop where
  cursor_le : i ≤ ts.length
  depth_le : depth ≤ m
  depth_add : depth + Token.closings (ts.take i) = Token.groups (ts.take i)

namespace Balanced

theorem next (h : Balanced m ts i depth) (ht : ts[i]? = some t) {depth' : Nat} (hle : depth' ≤ m)
    (hdepth : depth' + [t].countP Token.closes = depth + [t].countP Token.opens) :
    Balanced m ts (i + 1) depth' where
  cursor_le := (List.getElem?_eq_some_iff.1 ht).1
  depth_le := hle
  depth_add := by
    have hadd := h.depth_add
    rw [List.take_add_one, ht, Option.toList_some, Token.closings, Token.groups, List.countP_append,
      List.countP_append]
    rw [Token.closings, Token.groups] at hadd
    omega

theorem start (m : Nat) (ts : List (Token α)) : Balanced m ts 0 0 :=
  ⟨Nat.zero_le _, Nat.zero_le _, rfl⟩

end Balanced

/-- The stack may wait for a phrase of this kind, and `n` groups are open in it. -/
inductive Waits : Phrase → Nat → List (Frame α) → Prop
  | start : Waits .expr 0 []
  | group {n : Nat} {σ : List (Frame α)} : Waits .factor n σ → Waits .expr (n + 1) (.group :: σ)
  | expr {n : Nat} {σ : List (Frame α)} (before : Option (Formula (Token α))) :
      Waits .expr n σ → Waits .term n (.expr before :: σ)
  | term {n : Nat} {σ : List (Frame α)} (before : Option (Formula (Token α))) :
      Waits .term n σ → Waits .factor n (.term before :: σ)

theorem Waits.groups_eq (h : Waits p n σ) : σ.countP Frame.isGroup = n := by
  induction h with
  | start => rfl
  | group _ ih => rw [List.countP_cons_of_pos rfl, ih]
  | expr _ _ ih => rw [List.countP_cons_of_neg Bool.false_ne_true, ih]
  | term _ _ ih => rw [List.countP_cons_of_neg Bool.false_ne_true, ih]

/-- There are three frames for each open group, and up to two more. -/
theorem Waits.length_add (h : Waits p n σ) : σ.length + p.rank = 3 * n + 2 := by
  induction h with
  | start => rfl
  | group _ ih | expr _ _ ih | term _ _ ih =>
    simp only [List.length_cons, Phrase.rank] at ih ⊢
    omega

/-- What is known of every descent: while it goes on, its counter and its stack agree with the tokens
that were read, and at the end the stack is no larger than the limit allows. -/
inductive Sound (m : Nat) (ts : List (Token α)) : Descent α → Prop
  | enter {i depth : Nat} {σ : List (Frame α)} {p : Phrase} (h : Balanced m ts i depth)
      (hσ : Waits p depth σ) : Sound m ts ⟨i, depth, σ, .enter p⟩
  | give {i depth : Nat} {σ : List (Frame α)} {p : Phrase} (h : Balanced m ts i depth)
      (hσ : Waits p depth σ) (e : Formula (Token α)) : Sound m ts ⟨i, depth, σ, .give e⟩
  | finished {i depth n : Nat} {σ : List (Frame α)} {p : Phrase} (hi : i ≤ ts.length) (hn : n ≤ m)
      (hσ : Waits p n σ) (answer : Except (ParseError α) (Formula (Token α))) :
      Sound m ts ⟨i, depth, σ, .finished answer⟩

theorem sound_enterFactor (h : Balanced m ts i depth) (hσ : Waits .factor depth σ) :
    Sound m ts (enterFactor m ts i depth σ) := by
  fun_cases enterFactor m ts i depth σ with
  | case1 => exact .finished h.cursor_le h.depth_le hσ _
  | case2 => exact .finished h.cursor_le h.depth_le hσ _
  | case3 ht hdepth => exact .enter (h.next ht (Nat.not_le.1 hdepth) rfl) hσ.group
  | case4 a ht => exact .give (h.next ht h.depth_le rfl) hσ _
  | case5 => exact .finished h.cursor_le h.depth_le hσ _

theorem sound_giveTo (h : Balanced m ts i depth) (hσ : Waits p depth σ) (e : Formula (Token α)) :
    Sound m ts (giveTo ts i depth e σ) := by
  cases hσ with
  | start =>
    rw [giveTo]
    split
    · exact .finished h.cursor_le h.depth_le .start _
    · exact .finished h.cursor_le h.depth_le .start _
  | @group n σ hσ =>
    rw [giveTo]
    split
    · next ht => exact .give (h.next ht (Nat.le_of_succ_le h.depth_le) rfl) hσ e
    · exact .finished h.cursor_le h.depth_le hσ.group _
  | expr before hσ =>
    rw [giveTo]
    split
    · next ht => exact .enter (h.next ht h.depth_le rfl) (.expr _ hσ)
    · exact .give h hσ _
  | term before hσ =>
    rw [giveTo]
    split
    · next ht => exact .enter (h.next ht h.depth_le rfl) (.term _ hσ)
    · exact .give h hσ _

/-- **A step keeps the books.** -/
theorem Sound.step (h : Sound m ts c) : Sound m ts (c.step m ts) := by
  cases h with
  | @enter i depth σ p h hσ =>
    cases p with
    | factor => exact sound_enterFactor h hσ
    | term => exact .enter h (.term none hσ)
    | expr => exact .enter h (.expr none hσ)
  | give h hσ e => exact sound_giveTo h hσ e
  | finished hi hn hσ answer => exact .finished hi hn hσ answer

/-- **The books are kept as far as steps lead.** -/
theorem Sound.of_reaches (h : Sound m ts c) (hc : Reaches m ts c c') : Sound m ts c' := by
  obtain ⟨k, rfl⟩ := hc
  induction k with
  | zero => exact h
  | succ k ih =>
    rw [Function.iterate_succ_apply']
    exact ih.step

theorem sound_initial (m : Nat) (ts : List (Token α)) : Sound m ts initial :=
  .enter (.start m ts) .start

theorem Sound.cursor_le (h : Sound m ts c) : c.cursor ≤ ts.length := by
  cases h with
  | enter h _ => exact h.cursor_le
  | give h _ _ => exact h.cursor_le
  | finished hi _ _ _ => exact hi

/-- The stack of every descent waits for some phrase, with at most `m` open groups. -/
theorem Sound.exists_waits (h : Sound m ts c) : ∃ p, ∃ n ≤ m, Waits p n c.stack := by
  cases h with
  | enter h hσ => exact ⟨_, _, h.depth_le, hσ⟩
  | give h hσ _ => exact ⟨_, _, h.depth_le, hσ⟩
  | finished _ hn hσ _ => exact ⟨_, _, hn, hσ⟩

/-- While a descent goes on, the counter is the number of groups on its stack. -/
theorem Sound.balanced (h : Sound m ts c) (hc : ∀ answer, c.task ≠ .finished answer) :
    Balanced m ts c.cursor c.depth ∧ c.stack.countP Frame.isGroup = c.depth := by
  cases h with
  | enter h hσ => exact ⟨h, hσ.groups_eq⟩
  | give h hσ _ => exact ⟨h, hσ.groups_eq⟩
  | finished _ _ _ answer => exact absurd rfl (hc answer)

/-! ## The cursor -/

/-- What a step does to the cursor: it never goes back, and it goes on if the step is the first one to
return something. -/
structure Progress (c c' : Descent α) : Prop where
  cursor_le : c.cursor ≤ c'.cursor
  lt_of_give : ∀ {e}, c'.task = .give e → (∀ e', c.task ≠ .give e') → c.cursor < c'.cursor

theorem progress_enterFactor (m : Nat) (ts : List (Token α)) (i depth : Nat) (σ : List (Frame α)) :
    Progress ⟨i, depth, σ, .enter .factor⟩ (enterFactor m ts i depth σ) := by
  fun_cases enterFactor m ts i depth σ with
  | case1 => exact ⟨Nat.le_refl i, nofun⟩
  | case2 => exact ⟨Nat.le_refl i, nofun⟩
  | case3 => exact ⟨Nat.le_succ i, nofun⟩
  | case4 => exact ⟨Nat.le_succ i, fun _ _ => Nat.lt_succ_self i⟩
  | case5 => exact ⟨Nat.le_refl i, nofun⟩

theorem cursor_le_giveTo (ts : List (Token α)) (i depth : Nat) (e : Formula (Token α))
    (σ : List (Frame α)) : i ≤ (giveTo ts i depth e σ).cursor := by
  unfold giveTo
  split <;> split <;> simp

theorem progress_step (m : Nat) (ts : List (Token α)) (c : Descent α) :
    Progress c (c.step m ts) := by
  obtain ⟨i, depth, σ, task⟩ := c
  cases task with
  | enter p =>
    cases p with
    | factor => exact progress_enterFactor m ts i depth σ
    | term => exact ⟨Nat.le_refl i, nofun⟩
    | expr => exact ⟨Nat.le_refl i, nofun⟩
  | give e => exact ⟨cursor_le_giveTo ts i depth e σ, fun _ h => absurd rfl (h e)⟩
  | finished answer => exact ⟨Nat.le_refl i, nofun⟩

theorem Reaches.cursor_le (h : Reaches m ts c c') : c.cursor ≤ c'.cursor := by
  obtain ⟨k, rfl⟩ := h
  induction k with
  | zero => exact Nat.le_refl _
  | succ k ih =>
    rw [Function.iterate_succ_apply']
    exact ih.trans (progress_step m ts _).cursor_le

/-- **Between the entry of a call and a return a token is read.** -/
theorem Reaches.lt_cursor (h : Reaches m ts c c') (hc : c.task = .enter p)
    (hc' : c'.task = .give e) : c.cursor < c'.cursor := by
  obtain ⟨k, rfl⟩ := h
  induction k generalizing e with
  | zero => exact absurd (hc.symm.trans hc') nofun
  | succ k ih =>
    have hstep := progress_step m ts ((step m ts)^[k] c)
    rw [Function.iterate_succ_apply'] at hc' ⊢
    by_cases hgive : ∃ e', ((step m ts)^[k] c).task = .give e'
    · obtain ⟨e', hgive⟩ := hgive
      exact (ih hgive).trans_le hstep.cursor_le
    · -- the first return behind the entry is a literal
      have hle : c.cursor ≤ ((step m ts)^[k] c).cursor := Reaches.cursor_le ⟨k, rfl⟩
      exact hle.trans_lt (hstep.lt_of_give hc' (not_exists.1 hgive))

/-! ## The states of the parser -/

/-- The frames for what is read of a group. -/
def framesOf (p : Pending (Token α)) : List (Frame α) :=
  [.term p.conjunction, .expr p.disjunction]

/-- The descent that has read what a state of the parser has read. -/
def ofState (s : State α) : Descent α where
  cursor := s.index
  depth := s.depth
  stack := framesOf s.inner ++ s.outer.flatMap fun p => .group :: framesOf p
  task := match s.operand with
    | none => .enter .factor
    | some e => .give e

theorem joined_and (p : Pending (Token α)) (e : Formula (Token α)) :
    joined and p.conjunction e = p.term e := by
  rw [Pending.term]
  cases p.conjunction <;> rfl

theorem joined_or (p : Pending (Token α)) (e : Formula (Token α)) :
    joined or p.disjunction (p.term e) = p.sum e := by
  rw [Pending.sum]
  cases p.disjunction <;> rfl

theorem giveTo_term (before : Option (Formula (Token α))) (h : ts[i]? ≠ some .and) :
    giveTo ts i depth e (.term before :: σ) = ⟨i, depth, σ, .give (joined and before e)⟩ := by
  rw [giveTo]
  split
  · next hand => exact absurd hand h
  · rfl

theorem giveTo_expr (before : Option (Formula (Token α))) (h : ts[i]? ≠ some .or) :
    giveTo ts i depth e (.expr before :: σ) = ⟨i, depth, σ, .give (joined or before e)⟩ := by
  rw [giveTo]
  split
  · next hor => exact absurd hor h
  · rfl

theorem leads_sum (m depth : Nat) (e : Formula (Token α)) (σ : List (Frame α))
    (p : Pending (Token α)) (hand : ts[i]? ≠ some .and) (hor : ts[i]? ≠ some .or) :
    Leads m ts 2 ⟨i, depth, framesOf p ++ σ, .give e⟩ ⟨i, depth, σ, .give (p.sum e)⟩ := by
  have hterm := Leads.one m ts ⟨i, depth, framesOf p ++ σ, .give e⟩
  have hexpr := Leads.one m ts ⟨i, depth, .expr p.disjunction :: σ, .give (p.term e)⟩
  rw [step, giveTo_expr _ hor, joined_or] at hexpr
  rw [step, framesOf, List.cons_append, giveTo_term _ hand, joined_and] at hterm
  exact hterm.trans hexpr

/-- The descent that comes after a step of the parser. -/
def Follows (c : Descent α) : Except (ParseError α) (State α) → Prop
  | .ok s => c = ofState s
  | .error err => c.task = .finished (.error err)

theorem leads_stepOperand (m index depth : Nat) (outer : List (Pending (Token α)))
    (inner : Pending (Token α)) (ht : ts[index]? = some t) :
    ∃ c, Leads m ts 3 (ofState ⟨index, depth, outer, inner, none⟩) c ∧
      Follows c (State.stepOperand m ⟨index, depth, outer, inner, none⟩ t) := by
  have hone := Leads.one m ts (ofState ⟨index, depth, outer, inner, none⟩)
  simp only [ofState, step, enterFactor, ht] at hone
  cases t with
  | literal a => exact ⟨_, hone.mono (by omega), rfl⟩
  | opening =>
    by_cases hdepth : m ≤ depth
    · simp only [if_pos hdepth] at hone
      refine ⟨_, hone.mono (by omega), ?_⟩
      rw [State.stepOperand, if_pos hdepth]
      rfl
    · simp only [if_neg hdepth] at hone
      refine ⟨_, hone.trans ((Leads.one m ts _).trans (Leads.one m ts _)), ?_⟩
      rw [State.stepOperand, if_neg hdepth]
      rfl
  | and => exact ⟨_, hone.mono (by omega), rfl⟩
  | or => exact ⟨_, hone.mono (by omega), rfl⟩
  | closing => exact ⟨_, hone.mono (by omega), rfl⟩

/-- The descent behind an operand, with the frames of the innermost group apart from those around it. -/
theorem ofState_operand (index depth : Nat) (outer : List (Pending (Token α)))
    (inner : Pending (Token α)) (e : Formula (Token α)) :
    ofState ⟨index, depth, outer, inner, some e⟩ = ⟨index, depth,
      framesOf inner ++ outer.flatMap fun p => .group :: framesOf p, .give e⟩ := rfl

/-- In front of no operator the innermost group has to be closed, or the tokens have to end. -/
theorem leads_enclosed (m depth : Nat) (outer : List (Pending (Token α)))
    (inner : Pending (Token α)) (e : Formula (Token α)) (hand : ts[i]? ≠ some .and)
    (hor : ts[i]? ≠ some .or) :
    Leads m ts 3 (ofState ⟨i, depth, outer, inner, some e⟩)
      (giveTo ts i depth (inner.sum e) (outer.flatMap fun p => .group :: framesOf p)) :=
  (leads_sum m depth e _ inner hand hor).trans (Leads.one m ts _)

theorem follows_enclosed (depth : Nat) (outer : List (Pending (Token α))) (inner : Pending (Token α))
    (e : Formula (Token α)) (ht : ts[i]? = some t) (hand : t ≠ .and) (hor : t ≠ .or) :
    Follows (giveTo ts i depth (inner.sum e) (outer.flatMap fun p => .group :: framesOf p))
      (State.stepOperator ⟨i, depth, outer, inner, some e⟩ e t) := by
  cases outer with
  | nil =>
    rw [List.flatMap_nil, giveTo, ht]
    cases t with
    | and => exact absurd rfl hand
    | or => exact absurd rfl hor
    | _ => rfl
  | cons around outer =>
    rw [List.flatMap_cons, List.cons_append, giveTo, ht]
    cases t with
    | and => exact absurd rfl hand
    | or => exact absurd rfl hor
    | _ => rfl

theorem leads_stepOperator (m index depth : Nat) (outer : List (Pending (Token α)))
    (inner : Pending (Token α)) (e : Formula (Token α)) (ht : ts[index]? = some t) :
    ∃ c, Leads m ts 3 (ofState ⟨index, depth, outer, inner, some e⟩) c ∧
      Follows c (State.stepOperator ⟨index, depth, outer, inner, some e⟩ e t) := by
  by_cases hand : t = .and
  · -- the term goes on
    subst hand
    have hone := Leads.one m ts (ofState ⟨index, depth, outer, inner, some e⟩)
    rw [ofState_operand, step, framesOf, List.cons_append, giveTo, ht] at hone
    simp only [joined_and] at hone
    exact ⟨_, hone.mono (by omega), rfl⟩
  by_cases hor : t = .or
  · -- the term ends, the expression goes on and calls for the next term and its first factor
    subst hor
    have hone := Leads.one m ts (ofState ⟨index, depth, outer, inner, some e⟩)
    rw [ofState_operand, step, framesOf, List.cons_append, giveTo_term _ (by simp [ht]),
      joined_and] at hone
    refine ⟨_, (hone.trans (Leads.one m ts _)).trans (Leads.one m ts _), ?_⟩
    simp only [step, List.cons_append, giveTo, ht, joined_or]
    rfl
  have hand' : ts[index]? ≠ some .and := by simp [ht, hand]
  have hor' : ts[index]? ≠ some .or := by simp [ht, hor]
  exact ⟨_, leads_enclosed m depth outer inner e hand' hor',
    follows_enclosed depth outer inner e ht hand hor⟩

/-- **The descent follows a step of the parser**, with at most three steps. -/
theorem leads_step (m : Nat) (s : State α) (ht : ts[s.index]? = some t) :
    ∃ c, Leads m ts 3 (ofState s) c ∧ Follows c (s.step m t) := by
  obtain ⟨index, depth, outer, inner, operand⟩ := s
  cases operand with
  | none => exact leads_stepOperand m index depth outer inner ht
  | some e => exact leads_stepOperator m index depth outer inner e ht

/-- At the end of the tokens the descent ends like the parser. -/
theorem leads_finish (m : Nat) (s : State α) (ht : ts[s.index]? = none) :
    ∃ c, Leads m ts 3 (ofState s) c ∧ c.task = .finished s.finish := by
  obtain ⟨index, depth, outer, inner, operand⟩ := s
  cases operand with
  | none =>
    have hone := Leads.one m ts (ofState ⟨index, depth, outer, inner, none⟩)
    simp only [ofState, step, enterFactor, ht] at hone
    exact ⟨_, hone.mono (by omega), rfl⟩
  | some e =>
    refine ⟨_, leads_enclosed m depth outer inner e (by simp [ht]) (by simp [ht]), ?_⟩
    cases outer with
    | nil =>
      rw [List.flatMap_nil, giveTo, ht]
      rfl
    | cons around outer =>
      rw [List.flatMap_cons, List.cons_append, giveTo, ht]
      rfl

/-- **The descent follows a run of the parser**, with at most three steps for each token and for the
end. -/
theorem leads_run (m : Nat) (s : State α) (hs : ts.drop s.index = us) :
    ∃ c, Leads m ts (3 * us.length + 3) (ofState s) c ∧
      c.task = .finished ((s.run m us).bind State.finish) := by
  induction us generalizing s with
  | nil => exact leads_finish m s (List.getElem?_eq_none_iff.2 (List.drop_eq_nil_iff.1 hs))
  | cons t us ih =>
    have ht : ts[s.index]? = some t := by rw [← List.head?_drop, hs, List.head?_cons]
    obtain ⟨c, hc, hfollows⟩ := leads_step m s ht
    rw [State.run]
    cases hstep : s.step m t with
    | error err =>
      rw [hstep] at hfollows
      exact ⟨c, hc.mono (by simp), hfollows⟩
    | ok s' =>
      rw [hstep] at hfollows
      obtain rfl : c = ofState s' := hfollows
      obtain ⟨-, hindex⟩ := State.behind_of_step hstep
      have hs' : ts.drop s'.index = us := by
        rw [hindex, ← List.drop_drop, hs, List.drop_one, List.tail_cons]
      obtain ⟨c', hc', hfinished⟩ := ih s' hs'
      refine ⟨c', (hc.trans hc').mono ?_, hfinished⟩
      rw [List.length_cons]
      omega

theorem ofTokens_eq_bind (m : Nat) (ts : List (Token α)) :
    ofTokens m ts = (State.run m {} ts).bind State.finish := by
  rw [ofTokens]
  cases State.run m {} ts <;> rfl

/-- **The descent comes to its end**, with the answer of the parser. -/
theorem exists_finished (m : Nat) (ts : List (Token α)) :
    ∃ c, Leads m ts (3 * ts.length + 5) initial c ∧ c.task = .finished (ofTokens m ts) := by
  -- two calls lead to the state that the parser starts in
  have hstart : Leads m ts 2 initial (ofState {}) := ⟨2, Nat.le_refl 2, rfl⟩
  have hall : ts.drop ({} : State α).index = ts := rfl
  obtain ⟨c, hc, hfinished⟩ := leads_run m {} hall
  rw [← ofTokens_eq_bind] at hfinished
  exact ⟨c, (hstart.trans hc).mono (by omega), hfinished⟩

/-- **The bookkeeping of the descent.** Whenever a call is entered, the counter is the number of groups
that were opened less the number of those that were closed, and it is within the limit. A call that
returns a phrase leaves the counter as it found it and has moved the cursor, which never passes the end.
So the descent comes to its end, after at most three steps for each token and five more, with the answer
of the parser, and at no time more groups than the limit are on its stack, nor more than three calls for
each of them and two for the whole. -/
theorem bookkeeping (limits : Limits) (ts : List (Token α)) :
    (∀ c p, Reaches limits.maxDepth ts initial c → c.task = .enter p →
      c.depth + Token.closings (ts.take c.cursor) = Token.groups (ts.take c.cursor) ∧
        c.depth ≤ limits.maxDepth) ∧
    (∀ c c' e, Reaches limits.maxDepth ts initial c → Returns limits.maxDepth ts c c' e →
      c'.depth = c.depth ∧ c.cursor < c'.cursor ∧ c'.cursor ≤ ts.length) ∧
    (∃ c, Leads limits.maxDepth ts (3 * ts.length + 5) initial c ∧
      c.task = .finished (ofTokens limits.maxDepth ts)) ∧
    ∀ c, Reaches limits.maxDepth ts initial c →
      c.stack.countP Frame.isGroup ≤ limits.maxDepth ∧
        c.stack.length ≤ 3 * limits.maxDepth + 2 := by
  have hsound {c : Descent α} (hc : Reaches limits.maxDepth ts initial c) :=
    (sound_initial limits.maxDepth ts).of_reaches hc
  refine ⟨fun c p hc hp => ?_, fun c c' e hc h => ?_, exists_finished _ ts, fun c hc => ?_⟩
  · obtain ⟨hbalanced, -⟩ := (hsound hc).balanced (by simp [hp])
    exact ⟨hbalanced.depth_add, hbalanced.depth_le⟩
  · obtain ⟨p, hp⟩ := h.entered
    have hsound' := (hsound hc).of_reaches h.reaches
    obtain ⟨-, hgroups⟩ := (hsound hc).balanced (by simp [hp])
    obtain ⟨-, hgroups'⟩ := hsound'.balanced (by simp [h.task_eq])
    refine ⟨?_, h.reaches.lt_cursor hp h.task_eq, hsound'.cursor_le⟩
    rw [← hgroups, ← hgroups', h.stack_eq]
  · obtain ⟨p, n, hn, hwaits⟩ := (hsound hc).exists_waits
    have hlength := hwaits.length_add
    rw [hwaits.groups_eq]
    omega

/-- The call for the group behind the operator, with a group around it and a group inside it. -/
theorem bookkeeping_nested : ∃ (ts : List (Token Char)) (c c' : Descent Char),
    ts = [.opening, .literal 'a', .and, .opening, .literal 'b', .closing, .closing] ∧
    Reaches 2 ts initial c ∧ c.task = .enter .factor ∧ c.cursor = 3 ∧
    c.depth + Token.closings (ts.take c.cursor) = Token.groups (ts.take c.cursor) ∧ c.depth ≤ 2 ∧
    Returns 2 ts c c' (leaf (.literal 'b')) ∧ c'.depth = c.depth ∧ c.cursor < c'.cursor ∧
    c'.cursor ≤ ts.length ∧ c.stack.countP Frame.isGroup ≤ 2 ∧
    ∃ c'', Leads 2 ts 26 initial c'' ∧ c''.task = .finished (ofTokens 2 ts) := by
  let ts : List (Token Char) :=
    [.opening, .literal 'a', .and, .opening, .literal 'b', .closing, .closing]
  let c := (step 2 ts)^[7] initial
  let c' := (step 2 ts)^[7] c
  have hc : Reaches 2 ts initial c := ⟨7, rfl⟩
  have hreturns : Returns 2 ts c c' (leaf (.literal 'b')) := ⟨⟨7, rfl⟩, ⟨.factor, rfl⟩, rfl, rfl⟩
  obtain ⟨henter, hreturn, hfinished, hstack⟩ := bookkeeping ⟨2, 0⟩ ts
  obtain ⟨hadd, hle⟩ := henter c .factor hc rfl
  obtain ⟨hdepth, hlt, hend⟩ := hreturn c c' _ hc hreturns
  obtain ⟨hgroups, -⟩ := hstack c hc
  exact ⟨ts, c, c', rfl, hc, rfl, rfl, hadd, hle, hreturns, hdepth, hlt, hend, hgroups, hfinished⟩

end Descent

end Formula

end PositiveLogic
