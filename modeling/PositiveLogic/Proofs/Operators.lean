import PositiveLogic.Text
import PositiveLogic.Token.Operator

/-!
# Operators and the text around them

When an operator is found where it was written, and nowhere else.

* `Dialect.Separable`: the spellings of the two operators differ, are not empty and contain no
  blank, so that blanks around an operator part it from anything.
* `Dialect.WellFormed`: the signs of a dialect can be told apart from each other.
* `Stops d suffix`: no operator reaches into `suffix`. Then what follows a text has no say in the
  operators of the text (`operatorAt?_append`).
-/

namespace PositiveLogic

namespace Dialect

/-! ## Dialects that can be read back -/

/-- The signs that a literal cannot contain as they stand: a blank, the escape character, the quote
and the two ends of a group. -/
def IsReserved (d : Dialect) (c : Char) : Prop :=
  Text.isBlank c = true ∨ c = escape ∨ c = d.quote ∨ c = d.opening ∨ c = d.closing

instance (d : Dialect) (c : Char) : Decidable (d.IsReserved c) :=
  inferInstanceAs (Decidable (_ ∨ _))

/-- The operators can be told from each other and from text, if blanks stand around them. -/
structure Separable (d : Dialect) : Prop where
  and_ne_nil : d.andOp.toList ≠ []
  or_ne_nil : d.orOp.toList ≠ []
  and_ne_or : d.andOp.toList ≠ d.orOp.toList
  not_blank : ∀ c ∈ d.andOp.toList ++ d.orOp.toList, Text.isBlank c = false
  and_head : d.andOp.toList.head? ≠ some escape ∧ d.andOp.toList.head? ≠ some d.quote
  or_head : d.orOp.toList.head? ≠ some escape ∧ d.orOp.toList.head? ≠ some d.quote

instance (d : Dialect) : Decidable d.Separable :=
  decidable_of_iff
    (d.andOp.toList ≠ [] ∧ d.orOp.toList ≠ [] ∧ d.andOp.toList ≠ d.orOp.toList ∧
      (d.andOp.toList ++ d.orOp.toList).all (fun c => !Text.isBlank c) = true ∧
      (d.andOp.toList.head? ≠ some escape ∧ d.andOp.toList.head? ≠ some d.quote) ∧
      d.orOp.toList.head? ≠ some escape ∧ d.orOp.toList.head? ≠ some d.quote)
    (by
      simp only [List.all_eq_true, Bool.not_eq_true']
      exact ⟨fun ⟨h₁, h₂, h₃, h₄, h₅, h₆⟩ => ⟨h₁, h₂, h₃, h₄, h₅, h₆⟩,
        fun ⟨h₁, h₂, h₃, h₄, h₅, h₆⟩ => ⟨h₁, h₂, h₃, h₄, h₅, h₆⟩⟩)

/-- The signs of a dialect can be told apart: the ends of a group and the quote are three characters
that are neither blank nor the escape character, the operators differ, are not empty and hold none
of these signs, and a modifier is none of them and starts no operator. -/
structure WellFormed (d : Dialect) : Prop where
  opening_ne_closing : d.opening ≠ d.closing
  opening_ne_quote : d.opening ≠ d.quote
  closing_ne_quote : d.closing ≠ d.quote
  sign : ∀ c ∈ [d.opening, d.closing, d.quote], Text.isBlank c = false ∧ c ≠ escape
  and_ne_nil : d.andOp.toList ≠ []
  or_ne_nil : d.orOp.toList ≠ []
  and_ne_or : d.andOp.toList ≠ d.orOp.toList
  operator : ∀ c ∈ d.andOp.toList ++ d.orOp.toList, ¬ d.IsReserved c
  modifier : ∀ c ∈ d.modifiers.toList, ¬ d.IsReserved c ∧
    d.andOp.toList.head? ≠ some c ∧ d.orOp.toList.head? ≠ some c

instance (d : Dialect) : Decidable d.WellFormed :=
  decidable_of_iff
    (d.opening ≠ d.closing ∧ d.opening ≠ d.quote ∧ d.closing ≠ d.quote ∧
      [d.opening, d.closing, d.quote].all (fun c => !Text.isBlank c && c != escape) = true ∧
      d.andOp.toList ≠ [] ∧ d.orOp.toList ≠ [] ∧ d.andOp.toList ≠ d.orOp.toList ∧
      (d.andOp.toList ++ d.orOp.toList).all (fun c => !decide (d.IsReserved c)) = true ∧
      d.modifiers.toList.all (fun c => !decide (d.IsReserved c) &&
        (d.andOp.toList.head? != some c && d.orOp.toList.head? != some c)) = true)
    (by
      simp only [List.all_eq_true, Bool.and_eq_true, Bool.not_eq_true', decide_eq_false_iff_not,
        bne_iff_ne]
      exact ⟨fun ⟨h₁, h₂, h₃, h₄, h₅, h₆, h₇, h₈, h₉⟩ => ⟨h₁, h₂, h₃, h₄, h₅, h₆, h₇, h₈, h₉⟩,
        fun ⟨h₁, h₂, h₃, h₄, h₅, h₆, h₇, h₈, h₉⟩ => ⟨h₁, h₂, h₃, h₄, h₅, h₆, h₇, h₈, h₉⟩⟩)

namespace WellFormed

variable {d : Dialect}

/-- No operator starts with the escape character or the quote. -/
theorem head?_ne (hd : d.WellFormed) {s : List Char}
    (hs : ∀ c ∈ s, c ∈ d.andOp.toList ++ d.orOp.toList) :
    s.head? ≠ some escape ∧ s.head? ≠ some d.quote := by
  have hnot : ∀ c, d.IsReserved c → s.head? ≠ some c := fun c hc hhead =>
    hd.operator c (hs c (List.mem_of_mem_head? hhead)) hc
  exact ⟨hnot escape (by simp [IsReserved]), hnot d.quote (by simp [IsReserved])⟩

theorem separable (hd : d.WellFormed) : d.Separable where
  and_ne_nil := hd.and_ne_nil
  or_ne_nil := hd.or_ne_nil
  and_ne_or := hd.and_ne_or
  not_blank c hc := Bool.eq_false_iff.2 fun hb => hd.operator c hc (Or.inl hb)
  and_head := hd.head?_ne fun _ => List.mem_append_left _
  or_head := hd.head?_ne fun _ => List.mem_append_right _

theorem opening_not_blank (hd : d.WellFormed) : Text.isBlank d.opening = false :=
  (hd.sign _ (by simp)).1

theorem closing_not_blank (hd : d.WellFormed) : Text.isBlank d.closing = false :=
  (hd.sign _ (by simp)).1

theorem quote_not_blank (hd : d.WellFormed) : Text.isBlank d.quote = false :=
  (hd.sign _ (by simp)).1

theorem opening_ne_escape (hd : d.WellFormed) : d.opening ≠ escape := (hd.sign _ (by simp)).2

theorem closing_ne_escape (hd : d.WellFormed) : d.closing ≠ escape := (hd.sign _ (by simp)).2

theorem quote_ne_escape (hd : d.WellFormed) : d.quote ≠ escape := (hd.sign _ (by simp)).2

end WellFormed

end Dialect

theorem escape_not_blank : Text.isBlank escape = false := rfl

/-! ## Where a spelling is found -/

section Spelling

variable {op : String} {cs suffix rest : List Char}

theorem dropSpelling?_append (hop : op.toList ≠ []) (rest : List Char) :
    dropSpelling? op (op.toList ++ rest) = some rest :=
  dropSpelling?_eq_some_iff.2 ⟨hop, rfl⟩

theorem dropSpelling?_eq_none_iff (hop : op.toList ≠ []) :
    dropSpelling? op cs = none ↔ ¬ op.toList <+: cs := by
  constructor
  · rintro h ⟨rest, rfl⟩
    rw [dropSpelling?_append hop] at h
    cases h
  · intro h
    cases hdrop : dropSpelling? op cs with
    | none => rfl
    | some rest =>
      obtain ⟨-, rfl⟩ := dropSpelling?_eq_some_iff.1 hdrop
      exact absurd (List.prefix_append _ _) h

theorem dropSpelling?_of_append (h : dropSpelling? op (cs ++ suffix) = some (rest ++ suffix)) :
    dropSpelling? op cs = some rest := by
  obtain ⟨hop, hcs⟩ := dropSpelling?_eq_some_iff.1 h
  rw [← List.append_assoc] at hcs
  exact dropSpelling?_eq_some_iff.2 ⟨hop, List.append_cancel_right hcs⟩

theorem dropSpelling?_eq_none_of_append (h : dropSpelling? op (cs ++ suffix) = none) :
    dropSpelling? op cs = none := by
  cases hdrop : dropSpelling? op cs with
  | none => rfl
  | some rest =>
    obtain ⟨hop, rfl⟩ := dropSpelling?_eq_some_iff.1 hdrop
    rw [List.append_assoc, dropSpelling?_append hop] at h
    cases h

/-- A prefix of a joined text that holds not the first character of the second part lies in the
first part. -/
theorem prefix_of_prefix_append {xs : List Char} (hstop : ∀ c, suffix.head? = some c → c ∉ xs)
    (h : xs <+: cs ++ suffix) : xs <+: cs := by
  rcases Nat.le_total xs.length cs.length with hlen | hlen
  · exact List.prefix_of_prefix_length_le h (List.prefix_append _ _) hlen
  · obtain ⟨ys, rfl⟩ := List.prefix_of_prefix_length_le (List.prefix_append _ _) h hlen
    rw [List.prefix_append_right_inj] at h
    cases ys with
    | nil => simp
    | cons y ys =>
      obtain ⟨zs, hzs⟩ := h
      refine absurd ?_ (hstop y ?_)
      · simp
      · rw [← hzs]
        rfl

/-- What follows a text has no say in a spelling at its start, if it starts with a character that
the spelling does not hold. -/
theorem dropSpelling?_append_of_stop (hstop : ∀ c, suffix.head? = some c → c ∉ op.toList) :
    dropSpelling? op (cs ++ suffix) = (dropSpelling? op cs).map (· ++ suffix) := by
  cases hdrop : dropSpelling? op cs with
  | some rest =>
    obtain ⟨hop, rfl⟩ := dropSpelling?_eq_some_iff.1 hdrop
    rw [List.append_assoc, dropSpelling?_append hop]
    rfl
  | none =>
    by_cases hop : op.toList = []
    · simp [dropSpelling?, hop]
    · rw [Option.map_none, dropSpelling?_eq_none_iff hop]
      rw [dropSpelling?_eq_none_iff hop] at hdrop
      exact fun h => hdrop (prefix_of_prefix_append hstop h)

/-- A text holds a spelling that starts with no blank only where the spelling starts at one of its
characters, blanks apart. -/
theorem not_infix_of_not_prefix {s text : List Char} (back : List Char) (hne : s ≠ [])
    (hhead : ∀ c, s.head? = some c → Text.isBlank c = false)
    (h : ∀ xs c ys, text = xs ++ c :: ys →
      Text.isBlank c = true ∨ ¬ s <+: c :: (ys ++ back)) : ¬ s <:+: text := by
  rintro ⟨xs, ys, rfl⟩
  cases s with
  | nil => exact hne rfl
  | cons c s =>
    rcases h xs c (s ++ ys) (by simp) with hc | hc
    · rw [hhead c rfl] at hc
      cases hc
    · exact hc ⟨ys ++ back, by simp⟩

end Spelling

namespace Dialect

variable {d : Dialect} {cs suffix rest : List Char}

/-! ## Where an operator is found -/

/-- No operator reaches into a text: its first character stands in no operator. -/
def Stops (d : Dialect) (suffix : List Char) : Prop :=
  ∀ c, suffix.head? = some c → c ∉ d.andOp.toList ∧ c ∉ d.orOp.toList

theorem Stops.nil (d : Dialect) : d.Stops [] := by
  intro c hc
  cases hc

theorem Stops.cons {c : Char} (hand : c ∉ d.andOp.toList) (hor : c ∉ d.orOp.toList)
    (cs : List Char) : d.Stops (c :: cs) := by
  intro x hx
  obtain rfl := Option.some.inj hx
  exact ⟨hand, hor⟩

/-- What follows a text has no say in the operator at its start, if no operator reaches into it. -/
theorem operatorAt?_append (h : d.Stops suffix) (cs : List Char) :
    d.operatorAt? (cs ++ suffix) =
      (d.operatorAt? cs).map fun (op, rest) => (op, rest ++ suffix) := by
  simp only [operatorAt?, dropSpelling?_append_of_stop fun c hc => (h c hc).1,
    dropSpelling?_append_of_stop fun c hc => (h c hc).2]
  split <;> cases dropSpelling? d.andOp cs <;> cases dropSpelling? d.orOp cs <;> rfl

theorem Stops.operatorAt?_eq_none (h : d.Stops cs) : d.operatorAt? cs = none := by
  rw [← List.nil_append cs, operatorAt?_append h, Option.map_eq_none_iff,
    Option.eq_none_iff_forall_ne_some]
  rintro ⟨op, rest⟩ hop
  exact Nat.not_lt_zero _ (length_rest_lt_of_operatorAt? hop)

theorem operatorAt?_eq_none_of_append (h : d.operatorAt? (cs ++ suffix) = none) :
    d.operatorAt? cs = none := by
  unfold operatorAt? at h ⊢
  by_cases hlen : d.andOp.length < d.orOp.length
  · simp only [if_pos hlen, Option.or_eq_none_iff, Option.map_eq_none_iff] at h ⊢
    exact h.imp dropSpelling?_eq_none_of_append dropSpelling?_eq_none_of_append
  · simp only [if_neg hlen, Option.or_eq_none_iff, Option.map_eq_none_iff] at h ⊢
    exact h.imp dropSpelling?_eq_none_of_append dropSpelling?_eq_none_of_append

theorem operatorAt?_of_append {op : Token Atom}
    (h : d.operatorAt? (cs ++ suffix) = some (op, rest ++ suffix)) :
    d.operatorAt? cs = some (op, rest) := by
  have hfound : ∀ {s : String} {t : Token Atom},
      (dropSpelling? s (cs ++ suffix)).map (t, ·) = some (op, rest ++ suffix) →
      (dropSpelling? s cs).map (t, ·) = some (op, rest) := by
    intro s t h
    obtain ⟨r, hr, he⟩ := Option.map_eq_some_iff.1 h
    obtain ⟨rfl, rfl⟩ := Prod.mk.inj he
    rw [dropSpelling?_of_append hr, Option.map_some]
  have hmissed : ∀ {s : String} {t : Token Atom},
      (dropSpelling? s (cs ++ suffix)).map (t, ·) = none →
      (dropSpelling? s cs).map (t, ·) = none := by
    intro s t h
    rw [Option.map_eq_none_iff] at h ⊢
    exact dropSpelling?_eq_none_of_append h
  unfold operatorAt? at h ⊢
  by_cases hlen : d.andOp.length < d.orOp.length
  · simp only [if_pos hlen, Option.or_eq_some_iff] at h ⊢
    exact h.imp hfound (And.imp hmissed hfound)
  · simp only [if_neg hlen, Option.or_eq_some_iff] at h ⊢
    exact h.imp hfound (And.imp hmissed hfound)

/-- No operator is found where none is spelled. -/
theorem operatorAt?_eq_none_iff (hand : d.andOp.toList ≠ []) (hor : d.orOp.toList ≠ []) :
    d.operatorAt? cs = none ↔ ¬ d.andOp.toList <+: cs ∧ ¬ d.orOp.toList <+: cs := by
  rw [← dropSpelling?_eq_none_iff hand, ← dropSpelling?_eq_none_iff hor, operatorAt?]
  split <;> cases dropSpelling? d.andOp cs <;> cases dropSpelling? d.orOp cs <;> simp

/-- Where no operator is found none is spelled, whatever the other spelling is. -/
theorem not_prefix_of_operatorAt?_eq_none (h : d.operatorAt? cs = none) {op : String}
    (hop : op = d.andOp ∨ op = d.orOp) (hne : op.toList ≠ []) : ¬ op.toList <+: cs := by
  rw [← dropSpelling?_eq_none_iff hne]
  simp only [operatorAt?] at h
  split at h <;> obtain ⟨h₁, h₂⟩ := Option.or_eq_none_iff.1 h <;>
    rw [Option.map_eq_none_iff] at h₁ h₂ <;> rcases hop with rfl | rfl <;> assumption

/-- Of two spellings the one that is not shorter is not found at the other one, in front of a
character that neither of them holds. -/
theorem dropSpelling?_other {op other : String} {c : Char} (hop : op.toList ≠ other.toList)
    (hlen : op.toList.length ≤ other.toList.length) (hc : c ∉ other.toList) :
    dropSpelling? other (op.toList ++ c :: rest) = none := by
  cases hdrop : dropSpelling? other (op.toList ++ c :: rest) with
  | none => rfl
  | some r =>
    obtain ⟨-, h⟩ := dropSpelling?_eq_some_iff.1 hdrop
    have hpre : other.toList <+: op.toList ++ c :: rest := ⟨r, h.symm⟩
    have hshort := prefix_of_prefix_append (fun x hx => by
      obtain rfl := Option.some.inj hx
      exact hc) hpre
    exact absurd (hshort.eq_of_length (by have := hshort.length_le; omega)).symm hop

/-- The spelling of an operator. -/
def spelling (d : Dialect) : Token Atom → List Char
  | .or => d.orOp.toList
  | _ => d.andOp.toList

/-- **Only operators are found, and what is found stands there**, in front of the rest. -/
theorem eq_spelling_append_of_operatorAt? {op : Token Atom}
    (h : d.operatorAt? cs = some (op, rest)) :
    op.isOperator = true ∧ cs = d.spelling op ++ rest := by
  have key : ∀ (s : String) (t : Token Atom), t.isOperator = true → d.spelling t = s.toList →
      (dropSpelling? s cs).map (t, ·) = some (op, rest) →
      op.isOperator = true ∧ cs = d.spelling op ++ rest := by
    intro s t ht hspell h
    obtain ⟨r, hr, he⟩ := Option.map_eq_some_iff.1 h
    obtain ⟨rfl, rfl⟩ := Prod.mk.inj he
    rw [hspell]
    exact ⟨ht, (dropSpelling?_eq_some_iff.1 hr).2⟩
  simp only [operatorAt?] at h
  split at h <;> rcases Option.or_eq_some_iff.1 h with h | ⟨-, h⟩ <;> exact key _ _ rfl rfl h

theorem isOperator_of_operatorAt? {op : Token Atom} (h : d.operatorAt? cs = some (op, rest)) :
    op.isOperator = true :=
  (eq_spelling_append_of_operatorAt? h).1

theorem suffix_of_operatorAt? {op : Token Atom} (h : d.operatorAt? cs = some (op, rest)) :
    rest <:+ cs := by
  rw [(eq_spelling_append_of_operatorAt? h).2]
  exact List.suffix_append _ rest

theorem Separable.not_mem_of_blank (hd : d.Separable) {c : Char} (hc : Text.isBlank c = true) :
    c ∉ d.andOp.toList ∧ c ∉ d.orOp.toList := by
  have hnot : c ∉ d.andOp.toList ++ d.orOp.toList := by
    intro h
    rw [hd.not_blank c h] at hc
    cases hc
  rwa [List.mem_append, not_or] at hnot

/-- **An operator is found where it is written**, if a blank stands behind it. -/
theorem Separable.operatorAt?_spelling (hd : d.Separable) {op : Token Atom} (hop : op.isOperator)
    {c : Char} (hc : Text.isBlank c = true) (rest : List Char) :
    d.operatorAt? (d.spelling op ++ c :: rest) = some (op, c :: rest) := by
  obtain ⟨hand, hor⟩ := hd.not_mem_of_blank hc
  have hlen : ∀ s : String, s.length = s.toList.length := fun s => String.length_toList.symm
  cases op with
  | and =>
    simp only [operatorAt?, spelling, dropSpelling?_append hd.and_ne_nil, hlen]
    split
    · next h =>
      rw [dropSpelling?_other hd.and_ne_or (Nat.le_of_lt h) hor]
      rfl
    · rfl
  | or =>
    simp only [operatorAt?, spelling, dropSpelling?_append hd.or_ne_nil, hlen]
    split
    · rfl
    · next h =>
      rw [dropSpelling?_other (Ne.symm hd.and_ne_or) (Nat.not_lt.1 h) hand]
      rfl
  | _ => cases hop

/-- The first character of an operator is neither blank, nor the escape character, nor the quote. -/
theorem Separable.exists_head (hd : d.Separable) {op : Token Atom} (hop : op.isOperator) :
    ∃ c cs, d.spelling op = c :: cs ∧ Text.isBlank c = false ∧ c ≠ escape ∧ c ≠ d.quote := by
  have key : ∀ s : List Char, s ≠ [] → (∀ c ∈ s, Text.isBlank c = false) →
      s.head? ≠ some escape ∧ s.head? ≠ some d.quote →
      ∃ c cs, s = c :: cs ∧ Text.isBlank c = false ∧ c ≠ escape ∧ c ≠ d.quote := by
    intro s hs hblank hhead
    cases s with
    | nil => exact absurd rfl hs
    | cons c cs =>
      refine ⟨c, cs, rfl, hblank c (by simp), ?_, ?_⟩
      · rintro rfl
        exact hhead.1 rfl
      · rintro rfl
        exact hhead.2 rfl
  cases op with
  | and =>
    exact key _ hd.and_ne_nil (fun c hc => hd.not_blank c (List.mem_append_left _ hc)) hd.and_head
  | or =>
    exact key _ hd.or_ne_nil (fun c hc => hd.not_blank c (List.mem_append_right _ hc)) hd.or_head
  | _ => cases hop

theorem Separable.stops_of_blank (hd : d.Separable) {c : Char} (hc : Text.isBlank c = true)
    (cs : List Char) : d.Stops (c :: cs) :=
  .cons (hd.not_mem_of_blank hc).1 (hd.not_mem_of_blank hc).2 cs

theorem WellFormed.stops_of_reserved (hd : d.WellFormed) {c : Char} (hc : d.IsReserved c)
    (cs : List Char) : d.Stops (c :: cs) :=
  .cons (fun h => hd.operator _ (List.mem_append_left _ h) hc)
    (fun h => hd.operator _ (List.mem_append_right _ h) hc) cs

end Dialect

end PositiveLogic
