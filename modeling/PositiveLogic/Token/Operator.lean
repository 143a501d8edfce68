import PositiveLogic.Dialect.Basic
import PositiveLogic.Token.Basic

/-!
# Operators in a text

`Dialect.operatorAt?` says which operator a text starts with. The longer spelling is tried first,
so that an operator that starts like the other one does not hide it; of two spellings of one
length conjunction is tried first. An empty spelling is never found.
-/

namespace PositiveLogic

/-- What follows a spelling at the start of a text. -/
def dropSpelling? (op : String) (cs : List Char) : Option (List Char) :=
  let spelling := op.toList
  if !spelling.isEmpty && spelling.isPrefixOf cs then some (cs.drop spelling.length) else none

theorem dropSpelling?_eq_some_iff {op : String} {cs rest : List Char} :
    dropSpelling? op cs = some rest ↔ op.toList ≠ [] ∧ cs = op.toList ++ rest := by
  simp only [dropSpelling?]
  split
  · next h =>
    simp only [Bool.and_eq_true, Bool.not_eq_true', List.isEmpty_eq_false_iff,
      List.isPrefixOf_iff_prefix] at h
    obtain ⟨hne, t, rfl⟩ := h
    simp [hne]
  · next h =>
    simp only [Bool.and_eq_true, Bool.not_eq_true', List.isEmpty_eq_false_iff,
      List.isPrefixOf_iff_prefix] at h
    constructor
    · simp
    · rintro ⟨hne, rfl⟩
      exact absurd ⟨hne, List.prefix_append _ _⟩ h

namespace Dialect

/-- The operator at the start of a text, and what follows it. -/
def operatorAt? (d : Dialect) (cs : List Char) : Option (Token Atom × List Char) :=
  let conjunction := (dropSpelling? d.andOp cs).map (Token.and, ·)
  let disjunction := (dropSpelling? d.orOp cs).map (Token.or, ·)
  if d.andOp.length < d.orOp.length then disjunction.or conjunction
  else conjunction.or disjunction

theorem length_rest_lt_of_operatorAt? {d : Dialect} {cs rest : List Char} {op : Token Atom}
    (h : d.operatorAt? cs = some (op, rest)) : rest.length < cs.length := by
  have key : ∀ (s : String) (t : Token Atom),
      (dropSpelling? s cs).map (t, ·) = some (op, rest) → rest.length < cs.length := by
    intro s t h
    obtain ⟨r, hr, he⟩ := Option.map_eq_some_iff.1 h
    obtain ⟨-, rfl⟩ := Prod.mk.injEq _ _ _ _ ▸ he
    obtain ⟨hne, rfl⟩ := dropSpelling?_eq_some_iff.1 hr
    have := List.length_pos_iff.2 hne
    simp only [List.length_append]
    omega
  simp only [operatorAt?] at h
  split at h <;> obtain h | ⟨-, h⟩ := Option.or_eq_some_iff.1 h <;> exact key _ _ h

end Dialect

end PositiveLogic
