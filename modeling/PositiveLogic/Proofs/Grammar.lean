import PositiveLogic.Formula.Parser

/-!
# The grammar of formulas

What a list of tokens means, said without a parser. A factor is a literal or a group, a term is a
chain of factors joined by `and`, and an expression is a chain of terms joined by `or`. Both chains
lean to the left.

* `Derives p ts e`: the tokens `ts` are a phrase of the kind `p`, and `e` is its tree.
* `Token.nesting ts` is the largest number of groups that are open at once in `ts`.
* `Derives.leaves_eq`: the leaves of the tree are the literals of the list, in order.
* `Derives.map` and `Derives.exists_of_map`: a phrase stays a phrase if its literals are changed,
  and it was one before.
-/

namespace PositiveLogic

namespace Token

variable {α β : Type}

/-! ## The nesting of groups -/

/-- The number of groups that are open behind a token, given that number in front of it. -/
def level (depth : Nat) : Token α → Nat
  | opening => depth + 1
  | closing => depth - 1
  | _ => depth

/-- The largest number of groups that are open at once, in a list in front of which `depth` groups
are open. -/
def nestingFrom (depth : Nat) : List (Token α) → Nat
  | [] => depth
  | t :: ts => max depth (nestingFrom (t.level depth) ts)

/-- The largest number of groups that are open at once. -/
def nesting (ts : List (Token α)) : Nat := nestingFrom 0 ts

theorem le_nestingFrom (depth : Nat) (ts : List (Token α)) : depth ≤ nestingFrom depth ts := by
  cases ts with
  | nil => exact Nat.le_refl _
  | cons t ts => exact Nat.le_max_left _ _

theorem nestingFrom_append (depth : Nat) (ts us : List (Token α)) :
    nestingFrom depth (ts ++ us) =
      max (nestingFrom depth ts) (nestingFrom (ts.foldl level depth) us) := by
  induction ts generalizing depth with
  | nil => exact (Nat.max_eq_right (le_nestingFrom depth us)).symm
  | cons t ts ih => simp only [List.cons_append, nestingFrom, List.foldl_cons, ih, Nat.max_assoc]

theorem foldl_level_le_nestingFrom (depth : Nat) (ts : List (Token α)) :
    ts.foldl level depth ≤ nestingFrom depth ts := by
  have h := nestingFrom_append depth ts []
  rw [List.append_nil, nestingFrom] at h
  omega

theorem nesting_snoc (ts : List (Token α)) (t : Token α) :
    nesting (ts ++ [t]) = max (nesting ts) (t.level (ts.foldl level 0)) := by
  have h := foldl_level_le_nestingFrom 0 ts
  rw [nesting, nestingFrom_append, nesting]
  simp only [nestingFrom]
  omega

@[simp] theorem level_map (f : α → β) (depth : Nat) (t : Token α) :
    (t.map f).level depth = t.level depth := by
  cases t <;> rfl

theorem nestingFrom_map (f : α → β) (depth : Nat) (ts : List (Token α)) :
    nestingFrom depth (ts.map (Token.map f)) = nestingFrom depth ts := by
  induction ts generalizing depth with
  | nil => rfl
  | cons t ts ih => simp only [List.map_cons, nestingFrom, level_map, ih]

end Token

namespace Formula

variable {α β : Type}

/-! ## Phrases -/

/-- The kinds of phrases of the grammar. -/
inductive Phrase
  /-- A literal or a group. -/
  | factor
  /-- Factors joined by `and`. -/
  | term
  /-- Terms joined by `or`. -/
  | expr
  deriving DecidableEq

/-- The tokens `ts` are a phrase of some kind, and `e` is its tree. -/
inductive Derives : Phrase → List (Token α) → Formula (Token α) → Prop
  | literal (a : α) : Derives .factor [.literal a] (leaf (.literal a))
  | group {ts : List (Token α)} {e : Formula (Token α)} :
      Derives .expr ts e → Derives .factor (.opening :: ts ++ [.closing]) e
  | factor {ts : List (Token α)} {e : Formula (Token α)} :
      Derives .factor ts e → Derives .term ts e
  | and {ts us : List (Token α)} {l r : Formula (Token α)} :
      Derives .term ts l → Derives .factor us r → Derives .term (ts ++ .and :: us) (and l r)
  | term {ts : List (Token α)} {e : Formula (Token α)} :
      Derives .term ts e → Derives .expr ts e
  | or {ts us : List (Token α)} {l r : Formula (Token α)} :
      Derives .expr ts l → Derives .term us r → Derives .expr (ts ++ .or :: us) (or l r)

namespace Derives

variable {p : Phrase} {ts : List (Token α)} {e : Formula (Token α)}

/-- **The leaves of a phrase's tree are its literals, in order.** -/
theorem leaves_eq (h : Derives p ts e) : e.leaves = ts.filter Token.isLiteral := by
  induction h with
  | literal a => rfl
  | group _ ih => simp [ih, Token.isLiteral]
  | factor _ ih => exact ih
  | and _ _ ihl ihr => simp [leaves, ihl, ihr, Token.isLiteral]
  | term _ ih => exact ih
  | or _ _ ihl ihr => simp [leaves, ihl, ihr, Token.isLiteral]

/-- Behind a phrase as many groups are open as in front of it. -/
theorem foldl_level (h : Derives p ts e) (depth : Nat) : ts.foldl Token.level depth = depth := by
  induction h generalizing depth with
  | literal a => rfl
  | group _ ih => simp [ih, Token.level]
  | factor _ ih => exact ih depth
  | and _ _ ihl ihr => simp [ihl, ihr, Token.level]
  | term _ ih => exact ih depth
  | or _ _ ihl ihr => simp [ihl, ihr, Token.level]

/-- The groups around a phrase add to the nesting of its own. -/
theorem nestingFrom_eq (h : Derives p ts e) (depth : Nat) :
    Token.nestingFrom depth ts = depth + Token.nesting ts := by
  induction h generalizing depth with
  | literal a => simp [Token.nesting, Token.nestingFrom, Token.level]
  | group h ih =>
    simp only [Token.nesting, List.cons_append, Token.nestingFrom, Token.level,
      Token.nestingFrom_append, h.foldl_level, ih (depth + 1), ih (0 + 1)]
    omega
  | factor _ ih => exact ih depth
  | and h _ ihl ihr =>
    have hr := ihr depth
    simp only [Token.nesting, Token.nestingFrom_append, Token.nestingFrom, h.foldl_level,
      Token.level, ihl depth] at hr ⊢
    omega
  | term _ ih => exact ih depth
  | or h _ ihl ihr =>
    have hr := ihr depth
    simp only [Token.nesting, Token.nestingFrom_append, Token.nestingFrom, h.foldl_level,
      Token.level, ihl depth] at hr ⊢
    omega

/-! ## Changing the literals -/

theorem map (f : α → β) (h : Derives p ts e) :
    Derives p (ts.map (Token.map f)) (e.map (Token.map f)) := by
  induction h with
  | literal a => exact .literal (f a)
  | group _ ih => simpa [Token.map] using ih.group
  | factor _ ih => exact ih.factor
  | and _ _ ihl ihr => simpa [Token.map, Formula.map] using ihl.and ihr
  | term _ ih => exact ih.term
  | or _ _ ihl ihr => simpa [Token.map, Formula.map] using ihl.or ihr

theorem exists_of_map (f : α → β) {us : List (Token β)} {e' : Formula (Token β)}
    (h : Derives p us e') (hts : ts.map (Token.map f) = us) :
    ∃ e, Derives p ts e ∧ e.map (Token.map f) = e' := by
  have token_map : ∀ t : Token α, ∀ b, t.map f = .literal b → ∃ a, t = .literal a ∧ f a = b := by
    intro t b ht
    cases t with
    | literal a => exact ⟨a, rfl, Token.literal.inj ht⟩
    | _ => cases ht
  induction h generalizing ts with
  | literal b =>
    obtain ⟨t, ts, rfl, ht, hnil⟩ := List.map_eq_cons_iff.1 hts
    obtain rfl := List.map_eq_nil_iff.1 hnil
    obtain ⟨a, rfl, rfl⟩ := token_map t b ht
    exact ⟨leaf (.literal a), .literal a, rfl⟩
  | group _ ih =>
    obtain ⟨t, ts, rfl, ht, hrest⟩ := List.map_eq_cons_iff.1 hts
    obtain ⟨xs, ys, rfl, hxs, hys⟩ := List.map_eq_append_iff.1 hrest
    obtain ⟨u, us, rfl, hu, hnil⟩ := List.map_eq_cons_iff.1 hys
    obtain rfl := List.map_eq_nil_iff.1 hnil
    obtain ⟨e, he, rfl⟩ := ih hxs
    cases t <;> cases ht
    cases u <;> cases hu
    exact ⟨e, he.group, rfl⟩
  | factor _ ih =>
    obtain ⟨e, he, rfl⟩ := ih hts
    exact ⟨e, he.factor, rfl⟩
  | and _ _ ihl ihr =>
    obtain ⟨xs, ys, rfl, hxs, hys⟩ := List.map_eq_append_iff.1 hts
    obtain ⟨t, zs, rfl, ht, hzs⟩ := List.map_eq_cons_iff.1 hys
    obtain ⟨l, hl, rfl⟩ := ihl hxs
    obtain ⟨r, hr, rfl⟩ := ihr hzs
    cases t <;> cases ht
    exact ⟨.and l r, hl.and hr, rfl⟩
  | term _ ih =>
    obtain ⟨e, he, rfl⟩ := ih hts
    exact ⟨e, he.term, rfl⟩
  | or _ _ ihl ihr =>
    obtain ⟨xs, ys, rfl, hxs, hys⟩ := List.map_eq_append_iff.1 hts
    obtain ⟨t, zs, rfl, ht, hzs⟩ := List.map_eq_cons_iff.1 hys
    obtain ⟨l, hl, rfl⟩ := ihl hxs
    obtain ⟨r, hr, rfl⟩ := ihr hzs
    cases t <;> cases ht
    exact ⟨.or l r, hl.or hr, rfl⟩

end Derives

end Formula

end PositiveLogic
