import Mathlib.Algebra.Ring.Parity
import Mathlib.Data.List.DropRight
import PositiveLogic.Proofs.Literals

/-!
# Texts as marks

`Mark.ofText?` reads a text as marks: an escape character is taken off and marks the character behind
it. Only a text whose last escape character has nothing behind it cannot be read so.

* `Mark.spell_of_ofText?`: the marks are written as the text, and an escape character among them was
  escaped.
* `Mark.ofText?_append`: a text behind whole marks is read as by itself.
* `Mark.ofText?_eq_none_iff`: a text cannot be read as marks exactly if it ends in an odd number of
  escape characters.
-/

namespace PositiveLogic

/-! ## The run at the end of a list -/

theorem length_rtakeWhile_cons {α : Type} (p : α → Bool) (a : α) (l : List α) :
    ((a :: l).rtakeWhile p).length =
      if l.all p then l.length + (if p a then 1 else 0) else (l.rtakeWhile p).length := by
  have hall : (l.reverse.takeWhile p).length = l.length ↔ l.all p = true := by
    have hlen : l.length = l.reverse.length := List.length_reverse.symm
    rw [hlen, ← List.all_reverse, List.all_eq_true, ← List.takeWhile_eq_self_iff]
    exact ⟨(List.takeWhile_prefix p).eq_of_length, fun h => by rw [h]⟩
  simp only [List.rtakeWhile, List.reverse_cons, List.takeWhile_append, List.length_reverse, hall]
  split
  · cases hp : p a <;> simp [hp]
  · rfl

theorem length_rtakeWhile_of_all {α : Type} {p : α → Bool} {l : List α} (h : l.all p = true) :
    (l.rtakeWhile p).length = l.length := by
  rw [List.rtakeWhile_eq_self_iff.2 (List.all_eq_true.1 h)]

namespace Mark

variable {c : Char} {cs : List Char} {ms : List Mark}

/-! ## Reading marks -/

/-- The marks of a text; `none` if the text ends in an escape character that marks nothing. -/
def ofText? : List Char → Option (List Mark)
  | [] => some []
  | c :: cs =>
    if c = escape then
      match cs with
      | [] => none
      | e :: cs => (ofText? cs).map (⟨e, true⟩ :: ·)
    else (ofText? cs).map (plain c :: ·)

theorem ofText?_escape (e : Char) (cs : List Char) :
    ofText? (escape :: e :: cs) = (ofText? cs).map (⟨e, true⟩ :: ·) := by
  rw [ofText?, if_pos rfl]

theorem ofText?_cons (hc : c ≠ escape) (cs : List Char) :
    ofText? (c :: cs) = (ofText? cs).map (plain c :: ·) := by
  rw [ofText?.eq_def]
  simp only [if_neg hc]

/-- **Marks are written as the text they were read from.** No escape character among them stands
unescaped. -/
theorem spell_of_ofText? (h : ofText? cs = some ms) :
    cs = ms.flatMap spell ∧ ∀ m ∈ ms, m.escaped = false → m.char ≠ escape := by
  fun_induction ofText? cs generalizing ms with
  | case1 =>
    cases h
    exact ⟨rfl, List.forall_mem_nil _⟩
  | case2 => cases h
  | case3 e cs ih =>
    obtain ⟨ns, hns, rfl⟩ := Option.map_eq_some_iff.1 h
    obtain ⟨hcs, hplain⟩ := ih hns
    exact ⟨congrArg (fun l => escape :: e :: l) hcs,
      List.forall_mem_cons.2 ⟨(fun h => by cases h), hplain⟩⟩
  | case4 c cs hc ih =>
    obtain ⟨ns, hns, rfl⟩ := Option.map_eq_some_iff.1 h
    obtain ⟨hcs, hplain⟩ := ih hns
    exact ⟨congrArg (c :: ·) hcs, List.forall_mem_cons.2 ⟨fun _ => hc, hplain⟩⟩

/-! ## Whole marks in front of a text -/

theorem ofText?_append (h : ofText? cs = some ms) (ds : List Char) :
    ofText? (cs ++ ds) = (ofText? ds).map (ms ++ ·) := by
  fun_induction ofText? cs generalizing ms with
  | case1 =>
    cases h
    simp
  | case2 => cases h
  | case3 e cs ih =>
    obtain ⟨ns, hns, rfl⟩ := Option.map_eq_some_iff.1 h
    rw [List.cons_append, List.cons_append, ofText?_escape, ih hns, Option.map_map]
    rfl
  | case4 c cs hc ih =>
    obtain ⟨ns, hns, rfl⟩ := Option.map_eq_some_iff.1 h
    rw [List.cons_append, ofText?_cons hc, ih hns, Option.map_map]
    rfl

/-- Whole marks in front of a text have no say in how it ends. -/
theorem ofText?_append_eq_none_iff (h : ofText? cs = some ms) (ds : List Char) :
    ofText? (cs ++ ds) = none ↔ ofText? ds = none := by
  rw [ofText?_append h, Option.map_eq_none_iff]

theorem ofText?_of_not_mem (h : escape ∉ cs) : ofText? cs = some (cs.map plain) := by
  induction cs with
  | nil => rfl
  | cons c cs ih =>
    obtain ⟨hc, hcs⟩ := not_or.1 (mt List.mem_cons.2 h)
    rw [ofText?_cons (Ne.symm hc), ih hcs]
    rfl

/-! ## The end of a text -/

/-- **A text cannot be read as marks exactly if it ends in an odd number of escape characters.** -/
theorem ofText?_eq_none_iff :
    ofText? cs = none ↔ Odd (cs.rtakeWhile (· == escape)).length := by
  fun_induction ofText? cs with
  | case1 => simp
  | case2 => simp [length_rtakeWhile_cons]
  | case3 e cs ih =>
    rw [Option.map_eq_none_iff, ih, length_rtakeWhile_cons, length_rtakeWhile_cons]
    -- two characters behind which only escape characters stand do not change the parity
    by_cases hcs : cs.all (· == escape) = true
    · rw [length_rtakeWhile_of_all hcs]
      by_cases he : e = escape
      · simp [he, hcs, Nat.odd_add, Nat.even_add_one]
      · simp [he, hcs]
    · simp [hcs]
  | case4 c cs hc ih =>
    rw [Option.map_eq_none_iff, ih, length_rtakeWhile_cons]
    split
    · next hcs => simp [hc, length_rtakeWhile_of_all hcs]
    · rfl

end Mark

end PositiveLogic
