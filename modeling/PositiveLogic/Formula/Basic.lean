/-!
# Formulas

Binary trees of conjunctions and disjunctions over leaves of any kind. A formula is in disjunctive normal
form if no disjunction stands below a conjunction; `Formula.toDnf` brings a formula into this form by
distributing conjunction over disjunction.
-/

namespace PositiveLogic

/-- A formula over leaves of one kind. -/
inductive Formula (α : Type)
  | leaf (a : α)
  | and (l r : Formula α)
  | or (l r : Formula α)
  deriving DecidableEq

namespace Formula

variable {α β : Type}

/-- Change the leaves. -/
def map (f : α → β) : Formula α → Formula β
  | leaf a => leaf (f a)
  | and l r => and (l.map f) (r.map f)
  | or l r => or (l.map f) (r.map f)

/-- The leaves from left to right. -/
def leaves : Formula α → List α
  | leaf a => [a]
  | and l r | or l r => l.leaves ++ r.leaves

@[simp] theorem leaves_map (f : α → β) (e : Formula α) : (e.map f).leaves = e.leaves.map f := by
  induction e with
  | leaf a => rfl
  | and l r ihl ihr => simp [map, leaves, ihl, ihr]
  | or l r ihl ihr => simp [map, leaves, ihl, ihr]

/-- The number of nodes on the longest way to a leaf. -/
def depth : Formula α → Nat
  | leaf _ => 1
  | and l r | or l r => 1 + max l.depth r.depth

/-- The single leaf of a formula without operators. -/
def leaf? : Formula α → Option α
  | leaf a => some a
  | _ => none

/-- The operands of the disjunctions at the top, from left to right: the largest subformulas that
are no disjunctions and are reached through disjunctions only. -/
def alternatives : Formula α → List (Formula α)
  | or l r => l.alternatives ++ r.alternatives
  | e => [e]

/-! ## Disjunctive normal form -/

/-- The conjunction of two formulas, pushed below the disjunctions at the top of the right one. -/
def distributeRight (l : Formula α) : Formula α → Formula α
  | or a b => or (distributeRight l a) (distributeRight l b)
  | r => and l r

/-- The conjunction of two formulas, pushed below the disjunctions at the top of the left one, and
then below those of the right one. -/
def distribute (l r : Formula α) : Formula α :=
  match l with
  | or a b => or (distribute a r) (distribute b r)
  | l => distributeRight l r

/-- The disjunctive normal form of a formula. -/
def toDnf : Formula α → Formula α
  | leaf a => leaf a
  | and l r => distribute l.toDnf r.toDnf
  | or l r => or l.toDnf r.toDnf

end Formula

end PositiveLogic
