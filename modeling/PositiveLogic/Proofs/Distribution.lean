import Mathlib.Data.List.Perm.Basic
import PositiveLogic.Proofs.Alternatives
import PositiveLogic.Proofs.NormalForm

/-!
# Distribution is conjunction

Distribution joins every alternative of the left side to every alternative of the right side. Where an
alternative of the left side has several clauses, those of the conjunction run through the right side
for each of them, and those of the distribution run through them for each alternative of the right side.
So the two lists of clauses have the same clauses, and the same order if the left side is in disjunctive
normal form.

* `Formula.Distributes`: the recursion with two sides, of which one or the other is taken apart, and the
  number of its calls. It ends for all sides and gives `Formula.distribute`
  (`Formula.distributes_iff`).
* `Formula.alternatives_distribute`: the alternatives of the distribution.
* `Formula.clauses_distribute_eq`: its clauses in their order, whatever the sides are.
* `Formula.clauses_distribute_perm`: they are those of the conjunction, up to the order.
* `Formula.distribute_is_conjunction`: all of this.
-/

namespace PositiveLogic

namespace Clauses

variable {α ι : Type}

theorem product_flatMap_left (xs : List ι) (f : ι → Clauses α) (rs : Clauses α) :
    product (xs.flatMap f) rs = xs.flatMap fun x => product (f x) rs :=
  List.flatMap_assoc

/-- A list on the right can be run through first, up to the order. -/
theorem product_flatMap_right_perm (ls : Clauses α) (xs : List ι) (f : ι → Clauses α) :
    (product ls (xs.flatMap f)).Perm (xs.flatMap fun x => product ls (f x)) := by
  induction xs with
  | nil => simp [product]
  | cons x xs ih =>
    have hcons : product ls ((x :: xs).flatMap f) =
        ls.flatMap fun l => (f x).map (l ++ ·) ++ (xs.flatMap f).map (l ++ ·) := by
      simp only [product, List.flatMap_cons, List.map_append]
    rw [hcons, List.flatMap_cons]
    exact (List.flatMap_append_perm ls _ _).symm.trans (ih.append_left _)

end Clauses

namespace Formula

variable {α : Type} {e l r : Formula α} {n : Nat}

/-! ## The recursion -/

theorem alternatives_of_not_or (h : e.isOr = false) : e.alternatives = [e] := by
  cases e with
  | or a b => cases h
  | leaf a => rfl
  | and a b => rfl

/-- Distribution of two sides gives a formula after `n` calls. A call takes the left side apart if it
is a disjunction, then the right side if that is one, and joins the sides otherwise. -/
inductive Distributes : Nat → Formula α → Formula α → Formula α → Prop
  | left {m n : Nat} {a b r x y : Formula α} :
      Distributes m a r x → Distributes n b r y → Distributes (m + n + 1) (or a b) r (or x y)
  | right {m n : Nat} {l a b x y : Formula α} (hl : l.isOr = false) :
      Distributes m l a x → Distributes n l b y → Distributes (m + n + 1) l (or a b) (or x y)
  | join {l r : Formula α} (hl : l.isOr = false) (hr : r.isOr = false) :
      Distributes 1 l r (and l r)

theorem distribute_of_not_or (hl : l.isOr = false) (r : Formula α) :
    distribute l r = distributeRight l r := by
  cases l with
  | or a b => cases hl
  | leaf a => rfl
  | and a b => rfl

theorem distribute_or_right (hl : l.isOr = false) (a b : Formula α) :
    distribute l (or a b) = or (distribute l a) (distribute l b) := by
  simp only [distribute_of_not_or hl, distributeRight]

theorem distribute_of_not_or_of_not_or (hl : l.isOr = false) (hr : r.isOr = false) :
    distribute l r = and l r := by
  rw [distribute_of_not_or hl]
  cases r with
  | or a b => cases hr
  | leaf a => rfl
  | and a b => rfl

/-- **What the recursion gives**, and how many calls it takes: there is one for every pair of
alternatives, and one for every disjunction between them. -/
theorem Distributes.eq_and_calls (h : Distributes n l r e) :
    e = distribute l r ∧ n + 1 = 2 * (l.alternatives.length * r.alternatives.length) := by
  induction h with
  | left _ _ ihx ihy =>
    obtain ⟨rfl, hm⟩ := ihx
    obtain ⟨rfl, hn⟩ := ihy
    refine ⟨rfl, ?_⟩
    rw [alternatives, List.length_append, Nat.add_mul]
    omega
  | right hl _ _ ihx ihy =>
    obtain ⟨rfl, hm⟩ := ihx
    obtain ⟨rfl, hn⟩ := ihy
    refine ⟨(distribute_or_right hl _ _).symm, ?_⟩
    rw [alternatives, List.length_append, Nat.mul_add]
    omega
  | join hl hr =>
    refine ⟨(distribute_of_not_or_of_not_or hl hr).symm, ?_⟩
    rw [alternatives_of_not_or hl, alternatives_of_not_or hr]
    rfl

/-- **The recursion ends**, by the left side, and below a left side that is no disjunction by the right
side. -/
theorem exists_distributes (l r : Formula α) : ∃ n e, Distributes n l r e := by
  have hright : ∀ l : Formula α, l.isOr = false → ∃ n e, Distributes n l r e := by
    intro l hl
    induction r with
    | leaf a => exact ⟨1, _, .join hl rfl⟩
    | and a b _ _ => exact ⟨1, _, .join hl rfl⟩
    | or a b iha ihb =>
      obtain ⟨m, x, hx⟩ := iha
      obtain ⟨n, y, hy⟩ := ihb
      exact ⟨_, _, .right hl hx hy⟩
  induction l with
  | leaf a => exact hright _ rfl
  | and a b _ _ => exact hright _ rfl
  | or a b iha ihb =>
    obtain ⟨m, x, hx⟩ := iha
    obtain ⟨n, y, hy⟩ := ihb
    exact ⟨_, _, .left hx hy⟩

/-- **Distribution is this recursion**, with this number of calls. -/
theorem distributes_iff : Distributes n l r e ↔
    e = distribute l r ∧ n + 1 = 2 * (l.alternatives.length * r.alternatives.length) := by
  refine ⟨Distributes.eq_and_calls, fun ⟨he, hn⟩ => ?_⟩
  obtain ⟨n', e', h⟩ := exists_distributes l r
  obtain ⟨he', hn'⟩ := h.eq_and_calls
  obtain rfl : e' = e := he'.trans he.symm
  obtain rfl : n' = n := by omega
  exact h

/-! ## Its clauses -/

theorem alternatives_distributeRight (l r : Formula α) :
    (distributeRight l r).alternatives = r.alternatives.map (and l) := by
  induction r with
  | leaf a => rfl
  | and a b _ _ => rfl
  | or a b iha ihb => rw [distributeRight, alternatives, iha, ihb, alternatives, List.map_append]

/-- **The alternatives of a distribution join those of its sides**, the left one changing slowest. -/
theorem alternatives_distribute (l r : Formula α) : (distribute l r).alternatives =
    l.alternatives.flatMap fun a => r.alternatives.map (and a) := by
  induction l with
  | leaf a =>
    exact (alternatives_distributeRight _ r).trans (List.flatMap_singleton _ _).symm
  | and a b _ _ =>
    exact (alternatives_distributeRight _ r).trans (List.flatMap_singleton _ _).symm
  | or a b iha ihb => rw [distribute, alternatives, iha, ihb, alternatives, List.flatMap_append]

/-- The clauses of a formula are those of its alternatives. -/
theorem flatMap_clauses_alternatives (e : Formula α) :
    e.alternatives.flatMap clauses = e.clauses := by
  induction e with
  | or l r ihl ihr => rw [alternatives, List.flatMap_append, ihl, ihr, clauses]
  | _ => exact List.append_nil _

/-- **The clauses of a distribution in their order**: pair by pair of alternatives. -/
theorem clauses_distribute_eq (l r : Formula α) : (distribute l r).clauses =
    l.alternatives.flatMap fun a => r.alternatives.flatMap fun b =>
      Clauses.product a.clauses b.clauses := by
  rw [← flatMap_clauses_alternatives, alternatives_distribute, List.flatMap_assoc]
  simp only [List.flatMap_map, clauses]

/-- **A distribution has the clauses of the conjunction**, in some order. -/
theorem clauses_distribute_perm (l r : Formula α) :
    (distribute l r).clauses.Perm (and l r).clauses := by
  rw [clauses_distribute_eq, clauses, ← flatMap_clauses_alternatives l,
    Clauses.product_flatMap_left]
  refine List.Perm.flatMap_left _ fun a _ => ?_
  rw [← flatMap_clauses_alternatives r]
  exact (Clauses.product_flatMap_right_perm _ _ _).symm

/-- **Distribution is conjunction on clauses.** For any two sides the recursion ends, with one result
and one number of calls. The clauses of the result are those of the conjunction, with their leaves in
the same order, but the clauses may be in another order: the result runs through the pairs of
alternatives. If no disjunction stands below a conjunction of the left side, whatever stands on the
right, the order is the same too. -/
theorem distribute_is_conjunction (l r : Formula α) :
    (∃ n, Distributes n l r (distribute l r)) ∧
    (∀ n e, Distributes n l r e ↔ e = distribute l r ∧
      n + 1 = 2 * (l.alternatives.length * r.alternatives.length)) ∧
    (distribute l r).clauses.Perm (and l r).clauses ∧
    (distribute l r).clauses = (l.alternatives.flatMap fun a => r.alternatives.flatMap fun b =>
      Clauses.product a.clauses b.clauses) ∧
    (l.IsDnf → (distribute l r).clauses = (and l r).clauses) := by
  refine ⟨?_, fun n e => distributes_iff, clauses_distribute_perm l r, clauses_distribute_eq l r,
    fun hl => clauses_distribute hl r⟩
  obtain ⟨n, e, h⟩ := exists_distributes l r
  obtain ⟨rfl, -⟩ := h.eq_and_calls
  exact ⟨n, h⟩

/-- A left side in disjunctive normal form beside a right side that is not, and the same sides
exchanged: there the second and the third clause change places. -/
theorem distribute_is_conjunction_exchanged : ∃ l r : Formula Char,
    l = or (leaf 'a') (leaf 'b') ∧ r = and (or (leaf 'c') (leaf 'd')) (leaf 'e') ∧
    Distributes 3 l r (distribute l r) ∧ l.IsDnf ∧
    (distribute l r).clauses = (and l r).clauses ∧ (distribute r l).clauses ≠ (and r l).clauses ∧
    (distribute r l).clauses.Perm (and r l).clauses := by
  let l : Formula Char := or (leaf 'a') (leaf 'b')
  let r : Formula Char := and (or (leaf 'c') (leaf 'd')) (leaf 'e')
  have hl : l.IsDnf := ⟨trivial, trivial⟩
  obtain ⟨-, hcalls, -, -, hsame⟩ := distribute_is_conjunction l r
  obtain ⟨-, -, hperm, -⟩ := distribute_is_conjunction r l
  exact ⟨l, r, rfl, rfl, (hcalls 3 _).2 ⟨rfl, rfl⟩, hl, hsame hl, by decide, hperm⟩

end Formula

end PositiveLogic
