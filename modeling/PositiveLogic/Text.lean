/-!
# Characters

* `Text.isBlank` holds of the characters with the Unicode property `White_Space`. `Text.trimBy p` drops
  the longest run of elements with `p` at each end of a list, and `Text.trim` the blanks at each end of
  a text.
* A `CharSet` lists its members in increasing order of code points, each once, so two sets with the
  same members are equal. `CharSet.ofList` collects the characters of a list, and `CharSet.mem_ofList`
  says that it keeps them all and adds none.
-/

namespace PositiveLogic

namespace Text

/-- The characters with the Unicode property `White_Space`. -/
def isBlank (c : Char) : Bool :=
  let n := c.toNat
  (0x9 ≤ n && n ≤ 0xD) || n == 0x20 || n == 0x85 || n == 0xA0 || n == 0x1680 ||
    (0x2000 ≤ n && n ≤ 0x200A) || n == 0x2028 || n == 0x2029 || n == 0x202F || n == 0x205F ||
    n == 0x3000

theorem isBlank_of_isWhitespace {c : Char} (h : c.isWhitespace = true) : isBlank c = true := by
  simp only [Char.isWhitespace, Bool.or_eq_true, decide_eq_true_eq] at h
  obtain ((rfl | rfl) | rfl) | rfl := h <;> decide

/-- Drop the longest run of elements with `p` at each end. -/
def trimBy {α : Type} (p : α → Bool) (l : List α) : List α :=
  ((l.dropWhile p).reverse.dropWhile p).reverse

/-- Drop the blanks at each end. -/
def trim (cs : List Char) : List Char :=
  trimBy isBlank cs

@[simp] theorem trimBy_nil {α : Type} (p : α → Bool) : trimBy p [] = [] := rfl

end Text

/-- A finite set of characters, listed by increasing code point. -/
structure CharSet where
  toList : List Char
  sorted : toList.Pairwise (· < ·)
  deriving DecidableEq

namespace CharSet

/-- Put a character into its place in an increasing list, unless it is there. -/
def place (c : Char) : List Char → List Char
  | [] => [c]
  | d :: ds => if c < d then c :: d :: ds else if c = d then d :: ds else d :: place c ds

theorem mem_place {c x : Char} {l : List Char} : x ∈ place c l ↔ x = c ∨ x ∈ l := by
  induction l with
  | nil => simp [place]
  | cons d ds ih =>
    simp only [place]
    split
    · simp
    · split
      · next h => subst h; simp
      · simp only [List.mem_cons, ih]
        constructor
        · rintro (h | h | h) <;> simp [h]
        · rintro (h | h | h) <;> simp [h]

theorem pairwise_place {c : Char} {l : List Char} (h : l.Pairwise (· < ·)) :
    (place c l).Pairwise (· < ·) := by
  induction l with
  | nil => simp [place]
  | cons d ds ih =>
    obtain ⟨hd, hds⟩ := List.pairwise_cons.1 h
    simp only [place]
    split
    · next hc =>
      refine List.pairwise_cons.2 ⟨fun x hx => ?_, h⟩
      obtain rfl | hx := List.mem_cons.1 hx
      · exact hc
      · exact Char.lt_trans hc (hd x hx)
    · split
      · exact h
      · next hc hne =>
        refine List.pairwise_cons.2 ⟨fun x hx => ?_, ih hds⟩
        obtain rfl | hx := mem_place.1 hx
        · exact Char.not_le.1 fun hle => hne (Char.le_antisymm hle (Char.not_lt.1 hc))
        · exact hd x hx

/-- The set without members. -/
def empty : CharSet := ⟨[], List.Pairwise.nil⟩

/-- The set with one more member. -/
def insert (s : CharSet) (c : Char) : CharSet :=
  ⟨place c s.toList, pairwise_place s.sorted⟩

/-- The set of the characters of a list. -/
def ofList (l : List Char) : CharSet :=
  l.foldl insert empty

/-- Whether a character is a member. -/
def contains (s : CharSet) (c : Char) : Bool :=
  s.toList.contains c

theorem mem_ofList {l : List Char} {c : Char} : c ∈ (ofList l).toList ↔ c ∈ l := by
  have h : ∀ s : CharSet, c ∈ (l.foldl insert s).toList ↔ c ∈ s.toList ∨ c ∈ l := by
    induction l with
    | nil => simp
    | cons d ds ih =>
      intro s
      simp only [List.foldl_cons, ih, insert, mem_place, List.mem_cons]
      constructor
      · rintro ((h | h) | h) <;> simp [h]
      · rintro (h | h | h) <;> simp [h]
  simpa [ofList, empty] using h empty

end CharSet

end PositiveLogic
