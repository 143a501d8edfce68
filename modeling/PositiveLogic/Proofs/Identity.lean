import Mathlib.Data.List.Nodup
import Mathlib.Data.List.Range
import PositiveLogic.Proofs.Origins

/-!
# Literals are told apart by their numbers

Each new literal gets the next number, kept in 64 bits, and tokens are compared by these numbers. As
long as the numbers do not run out, a number stands for one literal: all the literals that a session
has met are accounted for by the truth literal, with the number 0, and by those that its steps made,
with increasing numbers above 0.

* `Session.Accounts`: the invariant. `Session.Accounts.after` says that every event keeps it, and
  `Session.Accounts.run` that every run does.
* `Session.identities_sound`: in all runs, equal numbers are equal literals, new literals have new
  numbers, and no operation makes a leaf up.
-/

namespace PositiveLogic

/-- The number of a literal as it is kept, in 64 bits. -/
def Literal.word (l : Literal) : UInt64 :=
  UInt64.ofNat l.id

/-- Whether two tokens are the same, as it is decided: literals by their numbers, calls by name and
parameters too, and any other token by its kind. -/
def Token.identical : Leaf → Leaf → Bool
  | literal l, literal l' => l.word == l'.word && l.atom.call == l'.atom.call
  | t, t' => t == t'

/-- What happens in a run. -/
inductive Event
  /-- An operation is carried out, and what it makes is kept under a name. -/
  | step (d : Dialect) (name : String) (op : Operation)
  /-- Numbers are used for the literals of a text that is refused. -/
  | lost (count : Nat)

namespace Session

/-- The session after an event. -/
def after (s : Session) : Event → Session
  | .step d name op => (s.step d name op).1
  | .lost count => { s with next := s.next + count }

/-- The session after a list of events. -/
def run (s : Session) (events : List Event) : Session :=
  events.foldl after s

/-- The literals that an event makes. -/
def mintedAt (s : Session) : Event → List Literal
  | .step d _ op =>
    match s.perform d op with
    | .ok (v, _) => if op.mints s then v.literals else []
    | .error _ => []
  | .lost _ => []

/-- The literals that a list of events makes. -/
def minted (s : Session) : List Event → List Literal
  | [] => []
  | e :: events => s.mintedAt e ++ (s.after e).minted events

/-- The literals in the values of a session. -/
def literals (s : Session) : List Literal :=
  s.registers.flatMap fun r => r.2.literals

/-- The number of literals made so far, those of refused texts included. -/
def created (s : Session) : Nat :=
  s.next - 1

theorem minted_append (s : Session) (events rest : List Event) :
    s.minted (events ++ rest) = s.minted events ++ (s.run events).minted rest := by
  induction events generalizing s with
  | nil => rfl
  | cons e events ih =>
    rw [List.cons_append, minted, ih, minted, List.append_assoc]
    rfl

/-! ## Values that a session keeps -/

variable {s : Session} {known : List Literal} {l l' : Literal}

theorem mem_registers_of_get? {name : String} {v : Value} (h : s.get? name = some v) :
    (name, v) ∈ s.registers := by
  obtain ⟨front, back, hregisters, -⟩ := List.lookup_eq_some_iff.1 h
  rw [hregisters]
  exact List.mem_append_right _ List.mem_cons_self

theorem mem_literals_of_supplies {names : List String} (h : s.Supplies names (.literal l)) :
    l ∈ s.literals := by
  obtain ⟨name, -, ts, hts, hl⟩ := h
  obtain ⟨v, hv, rfl⟩ := Option.map_eq_some_iff.1 hts
  exact List.mem_flatMap.2 ⟨_, mem_registers_of_get? hv, Token.mem_literals.2 hl⟩

/-! ## The invariant -/

/-- A list of literals accounts for a session: their numbers increase and are in use, and every
literal that the session keeps is one of them. The lists of tokens it keeps have them in this
order. -/
structure Accounts (s : Session) (known : List Literal) : Prop where
  numbered : (known.map Literal.id).Sublist (List.range s.next)
  truth_mem : Literal.truth ∈ known
  mem_of_mem : ∀ l ∈ s.literals, l ∈ known
  sublist_of_tokens : ∀ r ∈ s.registers, ∀ ts, r.2.tokens? = some ts →
    (Token.literals ts).Sublist known

theorem accounts_start : Accounts {} [Literal.truth] where
  numbered := List.Sublist.refl _
  truth_mem := List.mem_singleton_self _
  mem_of_mem := fun _ h => by cases h
  sublist_of_tokens := fun _ h => by cases h

namespace Accounts

variable {v : Value}

/-- Numbers may be skipped. -/
theorem lost (h : s.Accounts known) (count : Nat) :
    Accounts { s with next := s.next + count } known where
  numbered := h.numbered.trans (List.range_sublist.2 (Nat.le_add_right _ _))
  truth_mem := h.truth_mem
  mem_of_mem := h.mem_of_mem
  sublist_of_tokens := h.sublist_of_tokens

/-- A value with known literals may be kept. -/
theorem keep {name : String} (h : s.Accounts known) (hknown : ∀ l ∈ v.literals, l ∈ known)
    (htokens : ∀ ts, v.tokens? = some ts → (Token.literals ts).Sublist known) :
    Accounts { s with registers := (name, v) :: s.registers } known where
  numbered := h.numbered
  truth_mem := h.truth_mem
  mem_of_mem := fun l hl => by
    rcases List.mem_append.1 hl with hl | hl
    · exact hknown l hl
    · exact h.mem_of_mem l hl
  sublist_of_tokens := fun r hr ts hts => by
    rcases List.mem_cons.1 hr with rfl | hr
    · exact htokens ts hts
    · exact h.sublist_of_tokens r hr ts hts

/-- Literals with the next numbers become known. -/
theorem extend {ls : List Literal} (h : s.Accounts known)
    (hids : ls.map Literal.id = List.range' s.next ls.length) :
    Accounts { s with next := s.next + ls.length } (known ++ ls) where
  numbered := by
    rw [List.map_append, hids, List.range_eq_range', ← List.range'_append_1, Nat.zero_add,
      ← List.range_eq_range']
    exact h.numbered.append (List.Sublist.refl _)
  truth_mem := List.mem_append_left _ h.truth_mem
  mem_of_mem := fun l hl => List.mem_append_left _ (h.mem_of_mem l hl)
  sublist_of_tokens := fun r hr ts hts =>
    (h.sublist_of_tokens r hr ts hts).trans (List.sublist_append_left _ _)

/-- **Every event keeps the account**, extended by the literals that it makes. -/
theorem after (h : s.Accounts known) (e : Event) :
    (s.after e).Accounts (known ++ s.mintedAt e) := by
  cases e with
  | lost count =>
    rw [mintedAt, List.append_nil]
    exact h.lost count
  | step d name op =>
    cases hperform : s.perform d op with
    | error fault =>
      simpa only [Session.after, Session.step, mintedAt, hperform, List.append_nil] using h
    | ok made =>
      obtain ⟨v, n⟩ := made
      simp only [Session.after, Session.step, mintedAt, hperform]
      cases hmints : op.mints s with
      | true =>
        obtain ⟨hids, rfl⟩ := numbered_of_perform hperform hmints
        refine (h.extend hids).keep (fun l hl => List.mem_append_right _ hl) fun ts hts => ?_
        cases v with
        | tokens us =>
          cases hts
          exact List.sublist_append_right _ _
        | _ => cases hts
      | false =>
        obtain ⟨rfl, htokens, hleaves⟩ := origin_of_perform hperform hmints
        rw [if_neg Bool.false_ne_true, List.append_nil]
        refine h.keep (fun l hl => ?_) fun ts hts => ?_
        · rcases hleaves _ (Token.mem_literals.1 hl) with hsupplied | ⟨htruth, -⟩
          · exact h.mem_of_mem l (mem_literals_of_supplies hsupplied)
          · obtain rfl := Token.literal.inj htruth
            exact h.truth_mem
        · rw [htokens] at hts
          cases hts

/-- **Every run keeps the account**, extended by the literals that it makes. -/
theorem run (h : s.Accounts known) (events : List Event) :
    (s.run events).Accounts (known ++ s.minted events) := by
  induction events generalizing s known with
  | nil =>
    rw [minted, List.append_nil]
    exact h
  | cons e events ih =>
    rw [minted, ← List.append_assoc]
    exact ih (h.after e)

/-! ## Numbers in 64 bits -/

theorem nodup_ids (h : s.Accounts known) : (known.map Literal.id).Nodup :=
  h.numbered.nodup List.nodup_range

theorem id_lt (h : s.Accounts known) (hl : l ∈ known) : l.id < s.next :=
  List.mem_range.1 (h.numbered.subset (List.mem_map_of_mem hl))

/-- **As long as the numbers fit, they are different.** -/
theorem nodup_words (h : s.Accounts known) (hs : s.next ≤ UInt64.size) :
    (known.map Literal.word).Nodup := by
  refine (List.Nodup.of_map _ h.nodup_ids).map_on fun l hl l' hl' hword => ?_
  refine List.inj_on_of_nodup_map h.nodup_ids hl hl' ?_
  have hid := congrArg UInt64.toNat hword
  rwa [Literal.word, Literal.word, UInt64.toNat_ofNat_of_lt' ((h.id_lt hl).trans_le hs),
    UInt64.toNat_ofNat_of_lt' ((h.id_lt hl').trans_le hs)] at hid

theorem sublist_of_parse (h : s.Accounts known) {d : Dialect} {of text : String} {limits : Limits}
    {n : Nat} (hperform : s.perform d (.parse of text limits) = .ok (v, n)) (name : String) :
    v.literals.Sublist (known ++ s.mintedAt (.step d name (.parse of text limits))) := by
  rcases (leaves_of_parse hperform).2 with hof | ⟨ts, hts, hliterals⟩
  · have hminted : s.mintedAt (.step d name (.parse of text limits)) = v.literals := by
      simp only [mintedAt, hperform, Operation.mints, hof, Option.isNone_none, if_true]
    rw [hminted]
    exact List.sublist_append_right _ _
  · rw [hliterals]
    exact (h.sublist_of_tokens _ (mem_registers_of_get? hts) ts rfl).trans
      (List.sublist_append_left _ _)

end Accounts

/-! ## Identity in all runs -/

/-- **Identity is sound over all runs** that make fewer than `2 ^ 64 - 1` literals.

Literals of the values made so far are equal if their numbers are, and then the comparison of tokens
finds them the same; the number 0 is that of the truth literal only. All literals that were scanned
or made by hand have numbers of their own, and every other literal is the truth literal. At each
step, a formula that is parsed has literals with different numbers as leaves, and an operation on
values gives only leaves of its operands, or the truth leaf where it fills a gap. -/
theorem identities_sound (events : List Event) (h : (run {} events).created < UInt64.size - 1) :
    (∀ l ∈ (run {} events).literals, ∀ l' ∈ (run {} events).literals,
      (l.word = l'.word ↔ l = l') ∧
      (Token.identical (.literal l) (.literal l') = true ↔ l.word = l'.word)) ∧
    (∀ l ∈ (run {} events).literals, l.word = 0 ↔ l = .truth) ∧
    ((minted {} events).map Literal.word).Nodup ∧
    (∀ l ∈ (run {} events).literals, l = .truth ∨ l ∈ minted {} events) ∧
    ∀ before d name op rest, events = before ++ .step d name op :: rest →
      ∀ v n, (run {} before).perform d op = .ok (v, n) →
        ((∃ of text limits, op = .parse of text limits) →
          v.leaves = v.literals.map .literal ∧ (v.literals.map Literal.word).Nodup) ∧
        (op.mints (run {} before) = false → ∀ t ∈ v.leaves,
          (run {} before).Supplies op.operands t ∨
            t = Token.truth ∧ op.addsTruth (run {} before) = true) := by
  have haccounts := accounts_start.run events
  have hwords := haccounts.nodup_words (by rw [created] at h; omega)
  have hinj : ∀ l ∈ (run {} events).literals, ∀ l' ∈ [Literal.truth] ++ minted {} events,
      l.word = l'.word ↔ l = l' := fun l hl l' hl' =>
    ⟨List.inj_on_of_nodup_map hwords (haccounts.mem_of_mem l hl) hl', congrArg _⟩
  refine ⟨fun l hl l' hl' => ?_, fun l hl => ?_, ?_, fun l hl => ?_, ?_⟩
  · have hword := hinj l hl l' (haccounts.mem_of_mem l' hl')
    refine ⟨hword, ?_⟩
    rw [Token.identical, Bool.and_eq_true, beq_iff_eq, beq_iff_eq, and_iff_left_iff_imp, hword]
    rintro rfl
    rfl
  · exact hinj l hl .truth haccounts.truth_mem
  · rw [List.map_append] at hwords
    exact hwords.of_append_right
  · exact List.mem_cons.1 (haccounts.mem_of_mem l hl)
  · rintro before d name op rest rfl v n hperform
    refine ⟨?_, fun hmints => (origin_of_perform hperform hmints).2.2⟩
    rintro ⟨of, text, limits, rfl⟩
    refine ⟨(leaves_of_parse hperform).1, ?_⟩
    -- what is known after the step is the first part of what is known in the end
    have hsublist := (accounts_start.run before).sublist_of_parse hperform name
    rw [minted_append, minted, ← List.append_assoc, ← List.append_assoc, List.map_append] at hwords
    exact (hsublist.map _).nodup hwords.of_append_left

/-- Three places with the same text, numbers lost in between, and a gap that the truth leaf fills. -/
theorem identities_sound_gaps : ∃ events : List Event,
    events = [.step {} "t" (.scan "a&&a"), .step {} "e" (.parse "t" "" {}), .lost 3,
      .step {} "f" (.token (.literal ⟨[], "a", none⟩)), .step {} "c" (.clauses [["f"], []]),
      .step {} "g" (.build "c")] ∧
    (run {} events).created = 6 ∧
    (minted {} events).map Literal.word = [1, 2, 6] ∧
    (run {} events).literals.map Literal.word = [6, 0, 6, 6, 1, 2, 1, 2] ∧
    ((minted {} events).map Literal.word).Nodup ∧
    ∀ l ∈ (run {} events).literals, l.word = 0 ↔ l = .truth := by
  have hscan : Token.ofText {} "a&&a" =
      .ok [.literal ⟨[], "a", none⟩, .and, .literal ⟨[], "a", none⟩] := by cbv
  have hsound : ∀ events, (run {} events).created = 6 →
      ((minted {} events).map Literal.word).Nodup ∧
        ∀ l ∈ (run {} events).literals, l.word = 0 ↔ l = .truth := by
    intro events hcreated
    obtain ⟨-, hzero, hnodup, -, -⟩ := identities_sound events (hcreated.trans_lt (by decide))
    exact ⟨hnodup, hzero⟩
  refine ⟨_, rfl, ?_, ?_, ?_, hsound _ ?_⟩
  all_goals
    simp only [run, minted, List.foldl_cons, List.foldl_nil, after, mintedAt, step, perform, hscan]
    rfl

end Session

end PositiveLogic
