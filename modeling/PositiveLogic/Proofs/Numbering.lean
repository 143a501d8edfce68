import Mathlib.Data.List.Nodup
import Mathlib.Data.List.Range
import PositiveLogic.Proofs.RoundTrip

/-!
# The numbers of literals

The literals of a text are numbered from left to right, so no two leaves of a formula that was read
are the same, whatever their texts are, and none stands for truth if the numbers start above 0.

* `Token.ids_stampAll`: the numbers of the literals are `next`, `next + 1` and so on.
* `Formula.nodup_leaves_of_read`: the leaves of a reading differ.
-/

namespace PositiveLogic

namespace Token

/-- The literals of a list of tokens. -/
def literals {α : Type} (ts : List (Token α)) : List α :=
  ts.filterMap literal?

/-- **The literals of a list are numbered in order**, and the next number follows the last one. -/
theorem ids_stampAll (next : Nat) (ts : List (Token Atom)) :
    (literals (stampAll next ts).1).map Literal.id =
        List.range' next (literals (stampAll next ts).1).length ∧
      (stampAll next ts).2 = next + (literals (stampAll next ts).1).length := by
  induction ts generalizing next with
  | nil => exact ⟨rfl, rfl⟩
  | cons t ts ih =>
    cases t with
    | literal a =>
      obtain ⟨hids, hnext⟩ := ih (next + 1)
      exact ⟨congrArg (next :: ·) hids, hnext.trans (Nat.add_right_comm _ _ _)⟩
    | _ => exact ih next

theorem filter_isLiteral_eq {α : Type} (ts : List (Token α)) :
    ts.filter isLiteral = (literals ts).map literal := by
  induction ts with
  | nil => rfl
  | cons t ts ih =>
    cases t with
    | literal a => exact congrArg (literal a :: ·) ih
    | _ => exact ih

theorem mem_literals {α : Type} {ts : List (Token α)} {a : α} :
    a ∈ literals ts ↔ literal a ∈ ts := by
  have hliteral : ∀ t : Token α, t.literal? = some a ↔ t = literal a := by
    intro t
    cases t <;> simp [literal?]
  simp only [literals, List.mem_filterMap, hliteral, exists_eq_right]

theorem literals_map_literal {α : Type} (ls : List α) : literals (ls.map literal) = ls := by
  rw [literals, List.filterMap_map]
  exact List.filterMap_some

end Token

namespace Formula

variable {d : Dialect} {limits : Limits} {next n : Nat} {s : String} {e : Formula Leaf}

/-- **The leaves of a reading are literals with the numbers from `next` on, in order**, and the next
number follows the last one. -/
theorem exists_literals_of_read (h : read d limits next s = .ok (e, n)) :
    ∃ ls : List Literal, e.leaves = ls.map .literal ∧
      ls.map Literal.id = List.range' next ls.length ∧ n = next + ls.length := by
  obtain ⟨ts, -, hparse, rfl⟩ := read_eq_ok_iff.1 h
  obtain ⟨hids, hnext⟩ := Token.ids_stampAll next ts
  refine ⟨Token.literals (Token.stampAll next ts).1, ?_, hids, hnext⟩
  rw [(derives_of_ofTokens hparse).1.leaves_eq, Token.filter_isLiteral_eq]

/-- **No leaf of a reading stands in two places.** -/
theorem nodup_leaves_of_read (h : read d limits next s = .ok (e, n)) : e.leaves.Nodup := by
  obtain ⟨ls, hleaves, hids, -⟩ := exists_literals_of_read h
  have hls : ls.Nodup := by
    refine List.Nodup.of_map Literal.id ?_
    rw [hids]
    exact List.nodup_range'
  rw [hleaves]
  exact hls.map fun _ _ hsame => Token.literal.inj hsame

theorem exists_literal_of_read (h : read d limits next s = .ok (e, n)) {t : Leaf}
    (ht : t ∈ e.leaves) : ∃ l, t = .literal l ∧ next ≤ l.id := by
  obtain ⟨ls, hleaves, hids, -⟩ := exists_literals_of_read h
  rw [hleaves] at ht
  obtain ⟨l, hl, rfl⟩ := List.mem_map.1 ht
  have hid := List.mem_map_of_mem (f := Literal.id) hl
  rw [hids, List.mem_range'_1] at hid
  exact ⟨l, rfl, hid.1⟩

theorem isTruth_eq_false_of_read (h : read d limits next s = .ok (e, n)) (hnext : 0 < next)
    {t : Leaf} (ht : t ∈ e.leaves) : t.isTruth = false := by
  obtain ⟨l, rfl, hid⟩ := exists_literal_of_read h ht
  exact beq_false_of_ne (Nat.ne_of_gt (hnext.trans_le hid))

end Formula

end PositiveLogic
