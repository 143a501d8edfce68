import Mathlib.Data.List.DropRight
import PositiveLogic.Token.Buffer

/-!
# The edges of a literal

Unescaped blanks in front of a literal are no part of it, so a buffer is known by its `core`, what
stands from the first other character on. The text of a buffer, whether it is vacant and the core
of what is added to it depend on the core only.

`Text.Trimming` says what is trimmed off a list by the ends of what is kept (`Trimming.trimBy_eq`).
`Buffer.chars` lists all characters of a buffer, and its text is these without some blanks at the
two ends (`Buffer.exists_append_text`). `Buffer.extend` adds a list of marks. A text is taken whole
exactly where neither of its ends is left out (`Buffer.text_eq_of_edges`, `Buffer.edges_of_text`).
-/

namespace PositiveLogic

namespace Text

variable {α : Type} {p : α → Bool} {l front kept back : List α}

theorem trimBy_eq_rdropWhile (p : α → Bool) (l : List α) :
    trimBy p l = (l.dropWhile p).rdropWhile p := rfl

theorem length_trimBy_le (p : α → Bool) (l : List α) : (trimBy p l).length ≤ l.length :=
  (List.rdropWhile_prefix p _).length_le.trans (List.dropWhile_sublist p).length_le

/-- A list is cut into runs of elements with `p` at its two ends and what is kept between them, where
the ends of what is kept do not belong to a longer run. -/
structure Trimming (p : α → Bool) (l front kept back : List α) : Prop where
  eq_append : l = front ++ kept ++ back
  of_mem_front : ∀ a ∈ front, p a = true
  of_mem_back : ∀ a ∈ back, p a = true
  head_kept : ∀ a, kept.head? = some a → p a = false
  last_kept : ∀ a, kept.getLast? = some a → p a = false

/-- Every list is cut so, around what trimming gives. -/
theorem trimming_trimBy (p : α → Bool) (l : List α) :
    Trimming p l (l.takeWhile p) (trimBy p l) ((l.dropWhile p).rtakeWhile p) where
  eq_append := by
    rw [trimBy_eq_rdropWhile, List.append_assoc, List.rdropWhile_append_rtakeWhile,
      List.takeWhile_append_dropWhile]
  of_mem_front := fun _ => List.mem_takeWhile_imp
  of_mem_back := fun _ => List.mem_rtakeWhile_imp
  head_kept := fun a ha => by
    obtain ⟨back, hback⟩ := List.rdropWhile_prefix p (l.dropWhile p)
    have hnot := List.head?_dropWhile_not p l
    rw [trimBy_eq_rdropWhile] at ha
    rw [← hback, List.head?_append, ha] at hnot
    simpa using hnot
  last_kept := fun a ha => by
    obtain ⟨hne, rfl⟩ := List.mem_getLast?_eq_getLast ha
    exact Bool.eq_false_iff.2 (List.rdropWhile_last_not p (l.dropWhile p) hne)

/-- Trimming takes elements from the two ends only. -/
theorem exists_append_trimBy (p : α → Bool) (l : List α) :
    ∃ front back, l = front ++ trimBy p l ++ back ∧ ∀ a ∈ front ++ back, p a = true := by
  have h := trimming_trimBy p l
  exact ⟨_, _, h.eq_append, List.forall_mem_append.2 ⟨h.of_mem_front, h.of_mem_back⟩⟩

/-- Trimming takes everything exactly if all of it belongs to a run. -/
theorem trimBy_eq_nil_iff : trimBy p l = [] ↔ l.all p = true := by
  rw [List.all_eq_true]
  constructor
  · intro h
    obtain ⟨front, back, hl, hall⟩ := exists_append_trimBy p l
    rw [h, List.append_nil] at hl
    exact hl ▸ hall
  · intro h
    rw [trimBy_eq_rdropWhile, List.dropWhile_eq_nil_iff.2 h]
    rfl

namespace Trimming

theorem dropWhile_eq (h : Trimming p l front kept back) (hkept : kept ≠ []) :
    l.dropWhile p = kept ++ back := by
  obtain ⟨a, kept, rfl⟩ := List.exists_cons_of_ne_nil hkept
  rw [h.eq_append, List.append_assoc, List.dropWhile_append_of_pos h.of_mem_front, List.cons_append,
    List.dropWhile_cons_of_neg (by simp [h.head_kept a rfl])]

theorem reverse (h : Trimming p l front kept back) :
    Trimming p l.reverse back.reverse kept.reverse front.reverse where
  eq_append := by simp [h.eq_append]
  of_mem_front := by simpa using h.of_mem_back
  of_mem_back := by simpa using h.of_mem_front
  head_kept := by simpa using h.last_kept
  last_kept := by simpa using h.head_kept

theorem rdropWhile_eq (h : Trimming p l front kept back) (hkept : kept ≠ []) :
    l.rdropWhile p = front ++ kept := by
  rw [List.rdropWhile, h.reverse.dropWhile_eq (by simpa using hkept)]
  simp

/-- **What is kept is what trimming gives.** -/
theorem trimBy_eq (h : Trimming p l front kept back) : trimBy p l = kept := by
  by_cases hkept : kept = []
  · subst hkept
    have hall : ∀ a ∈ front ++ back, p a = true :=
      List.forall_mem_append.2 ⟨h.of_mem_front, h.of_mem_back⟩
    rw [trimBy_eq_nil_iff, h.eq_append, List.append_nil]
    exact List.all_eq_true.2 hall
  · have hrest : Trimming p (kept ++ back) [] kept back :=
      ⟨rfl, nofun, h.of_mem_back, h.head_kept, h.last_kept⟩
    rw [trimBy_eq_rdropWhile, h.dropWhile_eq hkept, hrest.rdropWhile_eq hkept, List.nil_append]

end Trimming

theorem trimBy_eq_self (hhead : ∀ a, l.head? = some a → p a = false)
    (hlast : ∀ a, l.getLast? = some a → p a = false) : trimBy p l = l := by
  have h : Trimming p l [] l [] := ⟨by simp, nofun, nofun, hhead, hlast⟩
  exact h.trimBy_eq

/-- If trimming takes nothing from a list, its ends stay. -/
theorem edges_of_length_trimBy (h : (trimBy p l).length = l.length) :
    (∀ a, l.head? = some a → p a = false) ∧ ∀ a, l.getLast? = some a → p a = false := by
  have htrimming := trimming_trimBy p l
  have hsublist : (trimBy p l).Sublist l :=
    (List.rdropWhile_prefix p _).sublist.trans (List.dropWhile_sublist p)
  rw [hsublist.eq_of_length h] at htrimming
  exact ⟨htrimming.head_kept, htrimming.last_kept⟩

end Text

namespace Mark

variable {m : Mark}

theorem isSlack_of_escaped (h : m.escaped = true) : m.isSlack = false := by
  rw [isSlack, h, Bool.not_true, Bool.false_and]

theorem isSlack_of_not_escaped (h : m.escaped = false) : m.isSlack = Text.isBlank m.char := by
  rw [isSlack, h, Bool.not_false, Bool.true_and]

end Mark

namespace Buffer

/-! ## The core of a buffer -/

/-- The marks from the first one on that is not left out. -/
def core (b : Buffer) : List Mark := b.marks.dropWhile Mark.isSlack

@[simp] theorem core_empty : empty.core = [] := rfl

theorem text_eq_core (b : Buffer) : b.text = (b.core.rdropWhile Mark.isSlack).map Mark.char := rfl

theorem isVacant_iff_core (b : Buffer) : b.isVacant = true ↔ b.core = [] := by
  rw [isVacant_eq, core, List.all_eq_true, List.dropWhile_eq_nil_iff]

/-- The core of a buffer with one more mark is found from the core of the buffer. -/
theorem core_push (b : Buffer) (c : Char) : (b.push c).core =
    if b.core.isEmpty then [Mark.mk c false].dropWhile Mark.isSlack
    else b.core ++ [⟨c, false⟩] := by
  unfold core
  rw [marks_push, List.dropWhile_append]

theorem core_pushEscaped (b : Buffer) (c : Char) : (b.pushEscaped c).core =
    if b.core.isEmpty then [⟨c, true⟩] else b.core ++ [⟨c, true⟩] := by
  unfold core
  rw [marks_pushEscaped, List.dropWhile_append]
  rfl

theorem text_congr {b b' : Buffer} (h : b.core = b'.core) : b.text = b'.text := by
  rw [text_eq_core, h, text_eq_core]

theorem isVacant_congr {b b' : Buffer} (h : b.core = b'.core) : b.isVacant = b'.isVacant := by
  rw [Bool.eq_iff_iff, isVacant_iff_core, h, isVacant_iff_core]

theorem core_push_congr {b b' : Buffer} (h : b.core = b'.core) (c : Char) :
    (b.push c).core = (b'.push c).core := by
  rw [core_push, h, core_push]

theorem core_pushEscaped_congr {b b' : Buffer} (h : b.core = b'.core) (c : Char) :
    (b.pushEscaped c).core = (b'.pushEscaped c).core := by
  rw [core_pushEscaped, h, core_pushEscaped]

theorem text_push_of_blank (b : Buffer) {c : Char} (hc : Text.isBlank c = true) :
    (b.push c).text = b.text := by
  have hslack : Mark.isSlack ⟨c, false⟩ = true := hc
  rw [text_eq_core, text_eq_core, core_push]
  split
  · next h => rw [List.isEmpty_iff.1 h, List.dropWhile_cons_of_pos hslack, List.dropWhile_nil]
  · rw [List.rdropWhile_concat_pos _ _ _ hslack]

/-- A blank in front of everything has no effect on the core. -/
theorem core_push_empty_of_blank {c : Char} (hc : Text.isBlank c = true) :
    (empty.push c).core = empty.core := by
  have hslack : Mark.isSlack ⟨c, false⟩ = true := hc
  rw [core_push, core_empty, List.isEmpty_nil, if_pos rfl, List.dropWhile_cons_of_pos hslack]
  rfl

/-- Exactly a vacant buffer has no text. -/
theorem text_eq_nil_iff (b : Buffer) : b.text = [] ↔ b.isVacant = true := by
  rw [text, List.map_eq_nil_iff, Text.trimBy_eq_nil_iff, isVacant_eq]

/-- The characters of a buffer, escaped or not. -/
def chars (b : Buffer) : List Char := b.marks.map Mark.char

@[simp] theorem chars_empty : empty.chars = [] := rfl

@[simp] theorem chars_push (b : Buffer) (c : Char) : (b.push c).chars = b.chars ++ [c] := by
  rw [chars, chars, marks_push, List.map_append]
  rfl

/-- Only blanks at the two ends are left out of the text. -/
theorem exists_append_text (b : Buffer) :
    ∃ front back, b.chars = front ++ b.text ++ back ∧
      ∀ c ∈ front ++ back, Text.isBlank c = true := by
  obtain ⟨front, back, hmarks, hslack⟩ := Text.exists_append_trimBy Mark.isSlack b.marks
  refine ⟨front.map Mark.char, back.map Mark.char, ?_, fun c hc => ?_⟩
  · rw [chars, text, ← List.map_append, ← List.map_append, ← hmarks]
  · rw [← List.map_append] at hc
    obtain ⟨m, hm, rfl⟩ := List.mem_map.1 hc
    have hm := hslack m hm
    rw [Mark.isSlack, Bool.and_eq_true] at hm
    exact hm.2

theorem length_text_le (b : Buffer) : b.text.length ≤ b.marks.length := by
  unfold text
  rw [List.length_map]
  exact Text.length_trimBy_le _ _

/-! ## Adding many marks -/

/-- Add a list of marks. -/
def extend (b : Buffer) (ms : List Mark) : Buffer := ⟨ms.reverse ++ b.newestFirst⟩

@[simp] theorem marks_extend (b : Buffer) (ms : List Mark) :
    (b.extend ms).marks = b.marks ++ ms := by
  simp [extend, marks]

theorem extend_push (b : Buffer) (c : Char) (ms : List Mark) :
    (b.push c).extend ms = b.extend (⟨c, false⟩ :: ms) := by
  simp [extend, push]

theorem extend_pushEscaped (b : Buffer) (c : Char) (ms : List Mark) :
    (b.pushEscaped c).extend ms = b.extend (⟨c, true⟩ :: ms) := by
  simp [extend, pushEscaped]

theorem text_eq_of_edges {b : Buffer} (hhead : ∀ m, b.marks.head? = some m → m.isSlack = false)
    (hlast : ∀ m, b.marks.getLast? = some m → m.isSlack = false) :
    b.text = b.marks.map Mark.char := by
  unfold text
  rw [Text.trimBy_eq_self hhead hlast]

/-- A text is taken whole where nothing may be left out. -/
theorem text_eq_of_not_slack {b : Buffer} (h : ∀ m ∈ b.marks, m.isSlack = false) :
    b.text = b.marks.map Mark.char :=
  text_eq_of_edges (fun m hm => h m (List.mem_of_mem_head? hm))
    fun m hm => h m (List.mem_of_getLast? hm)

theorem edges_of_text {b : Buffer} (h : b.text.length = b.marks.length) :
    (∀ m, b.marks.head? = some m → m.isSlack = false) ∧
      ∀ m, b.marks.getLast? = some m → m.isSlack = false := by
  unfold text at h
  rw [List.length_map] at h
  exact Text.edges_of_length_trimBy h

end Buffer

end PositiveLogic
