import PositiveLogic.Formula.Clauses
import PositiveLogic.Proofs.Grammar

/-!
# The parser and the grammar

The machine of `Formula.ofTokens` accepts the expressions of the grammar whose groups nest no
deeper than allowed, and builds their trees.

* Forward, `State.run_of_derives`: a phrase takes the machine from a state that expects an operand
  to one that has read it. The three kinds of phrases differ in what they find and leave in the
  innermost group, which is `Phrase.Fills`.
* Backward, `State.Reads.step`: what a state has read is a piece of an expression. `State.Reads`
  cuts the tokens taken so far at the open groups and says which phrases stand between.
-/

namespace PositiveLogic

namespace Formula

variable {α : Type}

/-! ## Forward: phrases are accepted -/

/-- What the innermost group holds before and behind a phrase with the tree `e`, with `operand` the
operand that was read last: a factor is the operand itself, a term ends in it and needs an empty
conjunction in front, and an expression needs an empty group. -/
def Phrase.Fills (e : Formula (Token α)) (before after : Pending (Token α))
    (operand : Formula (Token α)) : Phrase → Prop
  | .factor => after = before ∧ operand = e
  | .term => before.conjunction = none →
      after.disjunction = before.disjunction ∧ after.term operand = e
  | .expr => before = {} → after.sum operand = e

namespace State

theorem run_of_step {m : Nat} {s s' : State α} {t : Token α} {ts : List (Token α)}
    (h : s.step m t = .ok s') : s.run m (t :: ts) = s'.run m ts := by
  rw [run, h]

theorem run_append_of_ok {m : Nat} {s s' : State α} {ts us : List (Token α)}
    (h : s.run m ts = .ok s') : s.run m (ts ++ us) = s'.run m us := by
  rw [run_append, h]
  rfl

/-- **A phrase is read.** The machine takes it as a whole if the groups in it stay within the
limit. -/
theorem run_of_derives {p : Phrase} {ts : List (Token α)} {e : Formula (Token α)}
    (h : Derives p ts e) (m index depth : Nat) (outer : List (Pending (Token α)))
    (inner : Pending (Token α)) (hm : Token.nestingFrom depth ts ≤ m) :
    ∃ after operand, run m ⟨index, depth, outer, inner, none⟩ ts =
      .ok ⟨index + ts.length, depth, outer, after, some operand⟩ ∧
        p.Fills e inner after operand := by
  induction h generalizing index depth outer inner with
  | literal a => exact ⟨inner, leaf (.literal a), rfl, rfl, rfl⟩
  | @group ts e h ih =>
    simp only [List.cons_append, Token.nestingFrom, Token.level, Token.nestingFrom_append] at hm
    obtain ⟨after, operand, hrun, hfill⟩ :=
      ih (index + 1) (depth + 1) (inner :: outer) {} (by omega)
    refine ⟨inner, e, ?_, rfl, rfl⟩
    have hdepth : ¬ m ≤ depth := by
      have := Token.le_nestingFrom (depth + 1) ts
      omega
    have hopen : step m ⟨index, depth, outer, inner, none⟩ (.opening : Token α) =
        .ok ⟨index + 1, depth + 1, inner :: outer, {}, none⟩ := by
      simp only [step, stepOperand, if_neg hdepth]
    rw [List.cons_append, run_of_step hopen, run_append_of_ok hrun]
    simp only [run, step, stepOperator, hfill rfl, List.length_cons, List.length_append,
      List.length_nil, Nat.add_sub_cancel]
    congr 2
    omega
  | factor _ ih =>
    obtain ⟨after, operand, hrun, rfl, rfl⟩ := ih index depth outer inner hm
    refine ⟨after, operand, hrun, fun hnone => ⟨rfl, ?_⟩⟩
    rw [Pending.term, hnone]
  | @and ts us l r hl _ ihl ihr =>
    rw [Token.nestingFrom_append, hl.foldl_level] at hm
    simp only [Token.nestingFrom, Token.level] at hm
    obtain ⟨after, operand, hrun, hfill⟩ := ihl index depth outer inner (by omega)
    obtain ⟨_, operand', hrun', rfl, rfl⟩ := ihr (index + ts.length + 1) depth outer
      { after with conjunction := some (after.term operand) } (by omega)
    refine ⟨{ after with conjunction := some (after.term operand) }, operand', ?_,
      fun hnone => ?_⟩
    · rw [run_append_of_ok hrun, run_of_step rfl]
      refine hrun'.trans ?_
      simp only [List.length_append, List.length_cons]
      congr 2
      omega
    · obtain ⟨hsame, hterm⟩ := hfill hnone
      exact ⟨hsame, by rw [Pending.term, hterm]⟩
  | term _ ih =>
    obtain ⟨after, operand, hrun, hfill⟩ := ih index depth outer inner hm
    refine ⟨after, operand, hrun, ?_⟩
    rintro rfl
    obtain ⟨hsame, hterm⟩ := hfill rfl
    rw [Pending.sum, hsame, hterm]
  | @or ts us l r hl _ ihl ihr =>
    rw [Token.nestingFrom_append, hl.foldl_level] at hm
    simp only [Token.nestingFrom, Token.level] at hm
    obtain ⟨after, operand, hrun, hfill⟩ := ihl index depth outer inner (by omega)
    obtain ⟨after', operand', hrun', hfill'⟩ := ihr (index + ts.length + 1) depth outer
      { disjunction := some (after.sum operand) } (by omega)
    refine ⟨after', operand', ?_, ?_⟩
    · rw [run_append_of_ok hrun, run_of_step rfl]
      refine hrun'.trans ?_
      simp only [List.length_append, List.length_cons]
      congr 2
      omega
    · rintro rfl
      obtain ⟨hsame, hterm⟩ := hfill' rfl
      rw [Pending.sum, hsame, hterm, hfill rfl]

end State

/-- **An expression is accepted with its tree**, if its groups nest no deeper than allowed. -/
theorem ofTokens_of_derives {m : Nat} {ts : List (Token α)} {e : Formula (Token α)}
    (h : Derives .expr ts e) (hm : Token.nesting ts ≤ m) : ofTokens m ts = .ok e := by
  obtain ⟨after, operand, hrun, hfill⟩ := State.run_of_derives h m 0 0 [] {} hm
  have hrun : State.run m {} ts = .ok ⟨0 + ts.length, 0, [], after, some operand⟩ := hrun
  rw [ofTokens, hrun]
  simp only [State.finish, hfill rfl]

theorem Derives.tree_unique {ts : List (Token α)} {e e' : Formula (Token α)}
    (h : Derives .expr ts e) (h' : Derives .expr ts e') : e = e' := by
  have he := ofTokens_of_derives h (Nat.le_refl _)
  rw [ofTokens_of_derives h' (Nat.le_refl _)] at he
  exact (Except.ok.inj he).symm

/-! ## Backward: what is accepted is a phrase -/

/-- The tokens in front of the next operand of a group, and what the machine keeps of them. -/
inductive Pending.Reads : Pending (Token α) → List (Token α) → Prop
  | start : Reads {} []
  | or {ts : List (Token α)} {s : Formula (Token α)} :
      Derives .expr ts s → Reads { disjunction := some s } (ts ++ [.or])
  | and {ts us : List (Token α)} {p : Pending (Token α)} {c : Formula (Token α)} :
      p.conjunction = none → Reads p ts → Derives .term us c →
        Reads { p with conjunction := some c } (ts ++ us ++ [.and])

namespace Pending.Reads

variable {p : Pending (Token α)} {ts us : List (Token α)} {e : Formula (Token α)}

/-- Behind the pending tokens of a group a factor ends a term of it. -/
theorem derives_term (h : Reads p ts) (he : Derives .factor us e) :
    ∃ vs ws, ts ++ us = vs ++ ws ∧ Derives .term ws (p.term e) ∧
      Reads { p with conjunction := none } vs := by
  cases h with
  | start => exact ⟨[], us, rfl, he.factor, .start⟩
  | or hs => exact ⟨_, us, rfl, he.factor, .or hs⟩
  | @and ts us' p c hnone hp hc =>
    refine ⟨ts, us' ++ .and :: us, by simp, hc.and he, ?_⟩
    obtain ⟨d, c'⟩ := p
    obtain rfl : c' = none := hnone
    exact hp

/-- Behind the pending tokens of a group a factor ends an expression. -/
theorem derives_expr (h : Reads p ts) (he : Derives .factor us e) :
    Derives .expr (ts ++ us) (p.sum e) := by
  obtain ⟨vs, ws, hsplit, hterm, hvs⟩ := h.derives_term he
  rw [hsplit]
  obtain ⟨d, c⟩ := p
  cases hvs with
  | start => exact hterm.term
  | or hs =>
    rw [List.append_assoc]
    exact hs.or hterm

end Pending.Reads

/-- The tokens in front of the innermost group, and what the machine keeps of the groups around
it. -/
inductive Frames : List (Pending (Token α)) → List (Token α) → Prop
  | none : Frames [] []
  | cons {outer : List (Pending (Token α))} {p : Pending (Token α)} {ts us : List (Token α)} :
      Frames outer ts → p.Reads us → Frames (p :: outer) (ts ++ us ++ [.opening])

/-- The tokens of the operand that was just read, if there is one. -/
def OperandReads : Option (Formula (Token α)) → List (Token α) → Prop
  | none, ts => ts = []
  | some e, ts => Derives .factor ts e

namespace State

/-- What a state has read: the tokens it took, cut at the innermost group and at the operand that
was just read, and the number of groups that are open. -/
structure Reads (m : Nat) (s : State α) (ts : List (Token α)) : Prop where
  index_eq : s.index = ts.length
  depth_eq : s.depth = s.outer.length
  level_eq : ts.foldl Token.level 0 = s.depth
  nesting_le : Token.nesting ts ≤ m
  split : ∃ us vs ws, ts = us ++ vs ++ ws ∧ Frames s.outer us ∧ s.inner.Reads vs ∧
    OperandReads s.operand ws

namespace Reads

variable {m : Nat} {s s' : State α} {ts us : List (Token α)} {t : Token α}

theorem start (m : Nat) : Reads m ({} : State α) [] :=
  ⟨rfl, rfl, rfl, Nat.zero_le m, [], [], [], rfl, .none, .start, rfl⟩

theorem snoc (h : Reads m s ts) {s' : State α} (hindex : s'.index = s.index + 1)
    (hdepth : s'.depth = t.level s.depth) (hm : s'.depth ≤ m)
    (houter : s'.depth = s'.outer.length)
    (split : ∃ us vs ws, ts ++ [t] = us ++ vs ++ ws ∧ Frames s'.outer us ∧ s'.inner.Reads vs ∧
      OperandReads s'.operand ws) : Reads m s' (ts ++ [t]) where
  index_eq := by simp [hindex, h.index_eq]
  depth_eq := houter
  level_eq := by simp [h.level_eq, hdepth]
  nesting_le := by
    rw [Token.nesting_snoc, h.level_eq, ← hdepth]
    exact Nat.max_le.2 ⟨h.nesting_le, hm⟩
  split := split

theorem depth_le (h : Reads m s ts) : s.depth ≤ m := by
  rw [← h.level_eq]
  exact Nat.le_trans (Token.foldl_level_le_nestingFrom 0 ts) h.nesting_le

/-- **What a state has read, one token on.** -/
theorem step (h : Reads m s ts) (hs : s.step m t = .ok s') : Reads m s' (ts ++ [t]) := by
  obtain ⟨us, vs, ws, rfl, hus, hvs, hws⟩ := h.split
  obtain ⟨index, depth, outer, inner, operand⟩ := s
  cases operand with
  | none =>
    obtain rfl : ws = [] := hws
    cases t with
    | literal a =>
      cases hs
      exact h.snoc rfl rfl h.depth_le h.depth_eq
        ⟨us, vs, [.literal a], by simp, hus, hvs, .literal a⟩
    | opening =>
      simp only [State.step, stepOperand] at hs
      split at hs
      · cases hs
      · next hdepth =>
        cases hs
        exact h.snoc rfl rfl (Nat.not_le.1 hdepth) (congrArg (· + 1) h.depth_eq)
          ⟨us ++ vs ++ [.opening], [], [], by simp, .cons hus hvs, .start, rfl⟩
    | _ => cases hs
  | some operand =>
    have hterm := hvs.derives_term hws
    have hexpr := hvs.derives_expr hws
    cases t with
    | and =>
      cases hs
      obtain ⟨vs', ws', hsplit, hterm, hvs'⟩ := hterm
      exact h.snoc rfl rfl h.depth_le h.depth_eq
        ⟨us, vs' ++ ws' ++ [.and], [], by simp [← hsplit], hus, .and rfl hvs' hterm, rfl⟩
    | or =>
      cases hs
      exact h.snoc rfl rfl h.depth_le h.depth_eq
        ⟨us, vs ++ ws ++ [.or], [], by simp, hus, .or hexpr, rfl⟩
    | closing =>
      cases hus with
      | none => cases hs
      | @cons outer p us vs' hus hp =>
        cases hs
        have hdepth : depth = outer.length + 1 := h.depth_eq
        refine h.snoc rfl rfl ?_ ?_ ⟨us, vs', _, ?_, hus, hp, hexpr.group⟩
        · exact Nat.le_trans (Nat.sub_le _ _) h.depth_le
        · exact congrArg (· - 1) hdepth
        · simp
    | _ => cases outer <;> cases hs

/-- **What a state has read, a list of tokens on.** -/
theorem run (h : Reads m s ts) (hs : s.run m us = .ok s') : Reads m s' (ts ++ us) := by
  induction us generalizing s ts with
  | nil =>
    cases hs
    simpa using h
  | cons t us ih =>
    rw [State.run] at hs
    split at hs
    · next s₁ hstep =>
      have := ih (h.step hstep) hs
      rwa [List.append_assoc] at this
    · cases hs

end Reads

end State

/-- **What is accepted is an expression**, and its groups nest no deeper than allowed. -/
theorem derives_of_ofTokens {m : Nat} {ts : List (Token α)} {e : Formula (Token α)}
    (h : ofTokens m ts = .ok e) : Derives .expr ts e ∧ Token.nesting ts ≤ m := by
  rw [ofTokens] at h
  split at h
  · next s hrun =>
    have hread := (State.Reads.start m).run hrun
    rw [List.nil_append] at hread
    obtain ⟨us, vs, ws, rfl, hus, hvs, hws⟩ := hread.split
    refine ⟨?_, hread.nesting_le⟩
    obtain ⟨index, depth, outer, inner, operand⟩ := s
    cases operand with
    | none => cases h
    | some operand =>
      cases hus with
      | none =>
        cases h
        exact hvs.derives_expr hws
      | cons _ _ => cases h
  · cases h

/-- **The parser accepts exactly the grammar and builds exactly its trees.** The leaves of the tree
are the literal tokens of the list themselves, in order. -/
theorem ofTokens_eq_ok_iff (limits : Limits) (ts : List (Token α)) (e : Formula (Token α)) :
    (ofTokens limits.maxDepth ts = .ok e ↔
      Derives .expr ts e ∧ Token.nesting ts ≤ limits.maxDepth) ∧
    (ofTokens limits.maxDepth ts = .ok e → e.leaves = ts.filter Token.isLiteral) :=
  ⟨⟨derives_of_ofTokens, fun ⟨h, hm⟩ => ofTokens_of_derives h hm⟩,
    fun h => (derives_of_ofTokens h).1.leaves_eq⟩

end Formula

end PositiveLogic
