import PositiveLogic.Proofs.Buffers

/-!
# Texts cut by bytes

`Text.slice?` is the part of a text between two offsets in bytes. There is one only if both offsets are
ends of characters and stand in this order (`Text.slice?_eq_some_iff`).

`Mark.textOf` is the text of marks, and `Mark.size` its number of bytes. Marks that stand together are
cut out of it between the sizes of what they follow (`Mark.slice?_textOf`), and where none of them is
escaped, trimming the text trims the marks (`Mark.trimStart_textOf`, `Mark.trimEnd_textOf`).
-/

namespace PositiveLogic

namespace Text

variable {s t : String} {i j : Nat}

/-- The part of a text between two offsets in bytes. Both must be ends of characters of the text, and
the second must not be in front of the first. -/
def slice? (s : String) (i j : Nat) : Option String := do
  let p ← s.pos? ⟨i⟩
  let q ← s.pos? ⟨j⟩
  let part ← s.slice? p q
  return part.copy

/-- Drop the blanks at the front. -/
def trimStart (s : String) : String := String.ofList (s.toList.dropWhile isBlank)

/-- Drop the blanks at the back. -/
def trimEnd (s : String) : String := String.ofList (s.toList.rdropWhile isBlank)

theorem pos?_eq_some_iff {p : s.Pos} : s.pos? ⟨i⟩ = some p ↔ p.offset = ⟨i⟩ := by
  unfold String.pos? String.Slice.pos?
  constructor
  · intro h
    split at h
    · cases h
      rfl
    · cases h
  · intro h
    have hvalid := p.isValid
    rw [h] at hvalid
    rw [dif_pos (by simpa using hvalid), Option.map_some, Option.some.injEq]
    exact String.Pos.ext h.symm

/-- **What is cut out, and when.** -/
theorem slice?_eq_some_iff : slice? s i j = some t ↔ ∃ front back,
    s = front ++ t ++ back ∧ i = front.utf8ByteSize ∧ j = (front ++ t).utf8ByteSize := by
  simp only [slice?, String.slice?, Option.bind_eq_bind, Option.bind_eq_some_iff, pos?_eq_some_iff,
    Option.pure_def, Option.some.injEq]
  constructor
  · rintro ⟨p, hp, q, hq, part, hpart, rfl⟩
    split at hpart
    · next hle =>
      cases hpart
      obtain ⟨front, back, hfront, hback⟩ := String.copy_slice_eq_iff_splits.1 ⟨hle, rfl⟩
      have hi := hfront.offset_eq_rawEndPos
      have hj := hback.offset_eq_rawEndPos
      rw [hp] at hi
      rw [hq] at hj
      exact ⟨front, back, hback.eq_append, congrArg String.Pos.Raw.byteIdx hi,
        congrArg String.Pos.Raw.byteIdx hj⟩
    · cases hpart
  · rintro ⟨front, back, hs, rfl, rfl⟩
    have hs' : s = front ++ (t ++ back) := by rw [hs, String.append_assoc]
    let p : s.Pos := ⟨front.rawEndPos, String.Pos.Raw.isValid_iff_exists_append.2 ⟨_, _, hs', rfl⟩⟩
    let q : s.Pos := ⟨(front ++ t).rawEndPos,
      String.Pos.Raw.isValid_iff_exists_append.2 ⟨_, _, hs, rfl⟩⟩
    have hsplits : p.Splits front (t ++ back) ∧ q.Splits (front ++ t) back := ⟨⟨hs', rfl⟩, ⟨hs, rfl⟩⟩
    obtain ⟨hle, hcopy⟩ := String.copy_slice_eq_iff_splits.2 ⟨front, back, hsplits⟩
    exact ⟨p, rfl, q, rfl, _, dif_pos hle, hcopy⟩

/-- What is cut out lies between two ends of characters, in this order. -/
theorem valid_of_slice? (h : slice? s i j = some t) :
    (⟨i⟩ : String.Pos.Raw).IsValid s ∧ (⟨j⟩ : String.Pos.Raw).IsValid s ∧ i ≤ j := by
  obtain ⟨front, back, hs, rfl, rfl⟩ := slice?_eq_some_iff.1 h
  have hs' : s = front ++ (t ++ back) := by rw [hs, String.append_assoc]
  refine ⟨String.Pos.Raw.isValid_iff_exists_append.2 ⟨_, _, hs', rfl⟩,
    String.Pos.Raw.isValid_iff_exists_append.2 ⟨_, _, hs, rfl⟩, ?_⟩
  rw [String.utf8ByteSize_append]
  exact Nat.le_add_right _ _

end Text

namespace Mark

variable {ms : List Mark}

/-- The characters of marks, as a text. -/
def textOf (ms : List Mark) : String := String.ofList (ms.map char)

/-- The number of bytes of the characters of marks. -/
def size (ms : List Mark) : Nat := (textOf ms).utf8ByteSize

theorem textOf_append (ms ns : List Mark) : textOf (ms ++ ns) = textOf ms ++ textOf ns := by
  rw [textOf, List.map_append, String.ofList_append, textOf, textOf]

theorem textOf_concat (ms : List Mark) (m : Mark) : textOf (ms ++ [m]) = (textOf ms).push m.char := by
  rw [textOf_append, String.push_eq_append]
  rfl

theorem textOf_eq_empty : textOf ms = "" ↔ ms = [] := by
  rw [textOf, String.ofList_eq_empty_iff, List.map_eq_nil_iff]

@[simp] theorem size_nil : size [] = 0 := rfl

@[simp] theorem size_append (ms ns : List Mark) : size (ms ++ ns) = size ms + size ns := by
  rw [size, textOf_append, String.utf8ByteSize_append, size, size]

/-- Marks are cut out between the bytes of what stands in front of them. -/
theorem slice?_textOf (front kept back : List Mark) (h : ms = front ++ kept ++ back) :
    Text.slice? (textOf ms) (size front) (size (front ++ kept)) = some (textOf kept) :=
  Text.slice?_eq_some_iff.2 ⟨textOf front, textOf back, by rw [h, textOf_append, textOf_append], rfl,
    by rw [size, textOf_append]⟩

theorem dropWhile_map_char (h : ∀ m ∈ ms, m.escaped = false) :
    (ms.map char).dropWhile Text.isBlank = (ms.dropWhile isSlack).map char := by
  induction ms with
  | nil => rfl
  | cons m ms ih =>
    obtain ⟨hm, hms⟩ := List.forall_mem_cons.1 h
    rw [List.map_cons, List.dropWhile_cons, List.dropWhile_cons, isSlack_of_not_escaped hm, ih hms]
    split <;> rfl

theorem trimStart_textOf (h : ∀ m ∈ ms, m.escaped = false) :
    Text.trimStart (textOf ms) = textOf (ms.dropWhile isSlack) := by
  rw [Text.trimStart, textOf, String.toList_ofList, dropWhile_map_char h, textOf]

theorem trimEnd_textOf (h : ∀ m ∈ ms, m.escaped = false) :
    Text.trimEnd (textOf ms) = textOf (ms.rdropWhile isSlack) := by
  have hreverse : ∀ m ∈ ms.reverse, m.escaped = false := by simpa using h
  rw [Text.trimEnd, textOf, String.toList_ofList, List.rdropWhile, ← List.map_reverse,
    dropWhile_map_char hreverse, ← List.map_reverse, textOf, List.rdropWhile]

end Mark

end PositiveLogic
