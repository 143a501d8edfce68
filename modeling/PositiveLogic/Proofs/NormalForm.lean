import PositiveLogic.Formula.Clauses

/-!
# Disjunctive normal form and clauses

A formula is in disjunctive normal form if no disjunction stands below a conjunction. Then its
clauses are its leaves, cut at the disjunctions.

* `Formula.isDnf_toDnf`: `toDnf` gives a formula in this form.
* `Formula.clauses_distribute`: distribution over a left side in this form multiplies the clauses of
  the two sides, in the order of `Clauses.product`. For another left side the order differs, because
  the disjunctions at the top of the right side are then pushed through in between.
* `Formula.clauses_toDnf`: so `toDnf` keeps the list of clauses, order included.
* `Formula.IsDnf.toDnf_eq`: a formula in this form stays as it is.
* `Formula.IsDnf.clauses_eq_map`: its clauses are the leaves of its alternatives, one by one.
* `Formula.mem_flatten_clauses`: no leaf of a formula is missing in its clauses, and none is added.
-/

namespace PositiveLogic

namespace Clauses

variable {α : Type}

theorem product_append_left (ls ms rs : Clauses α) :
    product (ls ++ ms) rs = product ls rs ++ product ms rs :=
  List.flatMap_append

theorem product_singleton_left (c : Clause α) (rs : Clauses α) :
    product [c] rs = rs.map fun r => c ++ r :=
  List.flatMap_singleton _ _

theorem product_singleton_right (ls : Clauses α) (c : Clause α) :
    product ls [c] = ls.map fun l => l ++ c :=
  List.map_eq_flatMap.symm

theorem mem_product {ls rs : Clauses α} {c : Clause α} :
    c ∈ product ls rs ↔ ∃ l ∈ ls, ∃ r ∈ rs, l ++ r = c := by
  simp only [product, List.mem_flatMap, List.mem_map]

theorem map_product {β : Type} (f : α → β) (ls rs : Clauses α) :
    (product ls rs).map (List.map f) = product (ls.map (List.map f)) (rs.map (List.map f)) := by
  simp [product, List.map_flatMap, List.flatMap_map, Function.comp_def]

end Clauses

namespace Formula

variable {α β : Type} {e l r : Formula α}

/-! ## The clauses of a formula -/

/-- **A clause holds leaves of the formula, in their order.** -/
theorem sublist_leaves_of_mem_clauses {c : Clause α} (h : c ∈ e.clauses) : c.Sublist e.leaves := by
  induction e generalizing c with
  | leaf a =>
    obtain rfl := List.mem_singleton.1 h
    exact List.Sublist.refl _
  | and l r ihl ihr =>
    obtain ⟨x, hx, y, hy, rfl⟩ := Clauses.mem_product.1 h
    exact (ihl hx).append (ihr hy)
  | or l r ihl ihr =>
    rcases List.mem_append.1 h with h | h
    · exact (ihl h).trans (List.sublist_append_left _ _)
    · exact (ihr h).trans (List.sublist_append_right _ _)

theorem clauses_ne_nil (e : Formula α) : e.clauses ≠ [] := by
  induction e with
  | leaf a => exact List.cons_ne_nil _ _
  | and l r ihl ihr =>
    intro h
    have hlen := congrArg List.length h
    rw [clauses, Clauses.length_product, List.length_nil] at hlen
    rcases Nat.mul_eq_zero.1 hlen with h | h
    · exact ihl (List.length_eq_zero_iff.1 h)
    · exact ihr (List.length_eq_zero_iff.1 h)
  | or l r ihl _ =>
    intro h
    exact ihl (List.append_eq_nil_iff.1 h).1

/-- No clause is empty. -/
theorem ne_nil_of_mem_clauses {c : Clause α} (h : c ∈ e.clauses) : c ≠ [] := by
  induction e generalizing c with
  | leaf a =>
    obtain rfl := List.mem_singleton.1 h
    exact List.cons_ne_nil _ _
  | and l r ihl _ =>
    obtain ⟨x, hx, y, -, rfl⟩ := Clauses.mem_product.1 h
    exact List.append_ne_nil_of_left_ne_nil (ihl hx) y
  | or l r ihl ihr =>
    rcases List.mem_append.1 h with h | h
    · exact ihl h
    · exact ihr h

theorem clauses_map (f : α → β) (e : Formula α) :
    (e.map f).clauses = e.clauses.map (List.map f) := by
  induction e with
  | leaf a => rfl
  | and l r ihl ihr => rw [map, clauses, ihl, ihr, clauses, Clauses.map_product]
  | or l r ihl ihr => rw [map, clauses, ihl, ihr, clauses, List.map_append]

/-! ## The form -/

/-- No disjunction stands in a formula. -/
def OrFree : Formula α → Prop
  | leaf _ => True
  | and l r => l.OrFree ∧ r.OrFree
  | or _ _ => False

/-- No disjunction stands below a conjunction of a formula. -/
def IsDnf : Formula α → Prop
  | leaf _ => True
  | and l r => l.OrFree ∧ r.OrFree
  | or l r => l.IsDnf ∧ r.IsDnf

theorem OrFree.isDnf (h : e.OrFree) : e.IsDnf := by
  cases e with
  | leaf a => trivial
  | and l r => exact h
  | or l r => exact h.elim

/-- A formula without disjunctions has one clause: its leaves. -/
theorem OrFree.clauses_eq (h : e.OrFree) : e.clauses = [e.leaves] := by
  induction e with
  | leaf a => rfl
  | and l r ihl ihr =>
    rw [clauses, ihl h.1, ihr h.2, Clauses.product_singleton_left]
    rfl
  | or l r _ _ => exact h.elim

/-- **The clauses of a formula in disjunctive normal form are its leaves**, cut at the
disjunctions. -/
theorem IsDnf.flatten_clauses (h : e.IsDnf) : e.clauses.flatten = e.leaves := by
  induction e with
  | leaf a => rfl
  | and l r _ _ =>
    have hfree : (and l r).OrFree := h
    rw [hfree.clauses_eq, List.flatten_singleton]
  | or l r ihl ihr => rw [clauses, List.flatten_append, ihl h.1, ihr h.2, leaves]

theorem IsDnf.orFree_of_mem_alternatives (h : e.IsDnf) {f : Formula α} (hf : f ∈ e.alternatives) :
    f.OrFree := by
  induction e with
  | leaf a =>
    obtain rfl := List.mem_singleton.1 hf
    trivial
  | and l r _ _ =>
    obtain rfl := List.mem_singleton.1 hf
    exact h
  | or l r ihl ihr =>
    rcases List.mem_append.1 hf with hf | hf
    · exact ihl h.1 hf
    · exact ihr h.2 hf

/-- **Each alternative of a formula in disjunctive normal form gives one clause**, its leaves. -/
theorem IsDnf.clauses_eq_map (h : e.IsDnf) : e.clauses = e.alternatives.map leaves := by
  induction e with
  | leaf a => rfl
  | and l r _ _ => exact OrFree.clauses_eq (e := and l r) h
  | or l r ihl ihr => rw [clauses, ihl h.1, ihr h.2, alternatives, List.map_append]

/-! ## Distribution -/

theorem isDnf_distributeRight (hl : l.OrFree) (hr : r.IsDnf) : (distributeRight l r).IsDnf := by
  induction r with
  | leaf a => exact ⟨hl, trivial⟩
  | and a b _ _ => exact ⟨hl, hr⟩
  | or a b iha ihb => exact ⟨iha hr.1, ihb hr.2⟩

theorem isDnf_distribute (hl : l.IsDnf) (hr : r.IsDnf) : (distribute l r).IsDnf := by
  induction l with
  | leaf a => exact isDnf_distributeRight trivial hr
  | and a b _ _ => exact isDnf_distributeRight hl hr
  | or a b iha ihb => exact ⟨iha hl.1, ihb hl.2⟩

/-- **The disjunctive normal form of a formula is in this form.** -/
theorem isDnf_toDnf (e : Formula α) : e.toDnf.IsDnf := by
  induction e with
  | leaf a => trivial
  | and l r ihl ihr => exact isDnf_distribute ihl ihr
  | or l r ihl ihr => exact ⟨ihl, ihr⟩

theorem distribute_of_orFree (hl : l.OrFree) (hr : r.OrFree) : distribute l r = and l r := by
  cases l with
  | or a b => exact hl.elim
  | _ =>
    cases r with
    | or a b => exact hr.elim
    | _ => rfl

theorem OrFree.toDnf_eq (h : e.OrFree) : e.toDnf = e := by
  induction e with
  | leaf a => rfl
  | and l r ihl ihr => rw [toDnf, ihl h.1, ihr h.2, distribute_of_orFree h.1 h.2]
  | or l r _ _ => exact h.elim

/-- **A formula in disjunctive normal form stays as it is.** -/
theorem IsDnf.toDnf_eq (h : e.IsDnf) : e.toDnf = e := by
  induction e with
  | leaf a => rfl
  | and l r _ _ => exact OrFree.toDnf_eq (e := and l r) h
  | or l r ihl ihr => rw [toDnf, ihl h.1, ihr h.2]

/-- A left side without disjunctions has one clause, which comes in front of those of the right
side. -/
theorem clauses_distributeRight (hl : l.OrFree) (r : Formula α) :
    (distributeRight l r).clauses = Clauses.product l.clauses r.clauses := by
  induction r with
  | leaf a => rfl
  | and a b _ _ => rfl
  | or a b iha ihb =>
    rw [distributeRight, clauses, iha, ihb, clauses, hl.clauses_eq,
      Clauses.product_singleton_left, Clauses.product_singleton_left,
      Clauses.product_singleton_left, List.map_append]

/-- **Distribution multiplies the clauses** of its sides, if the left one is in disjunctive normal
form. -/
theorem clauses_distribute (hl : l.IsDnf) (r : Formula α) :
    (distribute l r).clauses = Clauses.product l.clauses r.clauses := by
  induction l with
  | leaf a => exact clauses_distributeRight (l := leaf a) trivial r
  | and a b _ _ => exact clauses_distributeRight (l := and a b) hl r
  | or a b iha ihb =>
    rw [distribute, clauses, iha hl.1, ihb hl.2, clauses, Clauses.product_append_left]

/-- **A formula and its disjunctive normal form have the same clauses**, in the same order and with
the same leaves in the same order. -/
theorem clauses_toDnf (e : Formula α) : e.toDnf.clauses = e.clauses := by
  induction e with
  | leaf a => rfl
  | and l r ihl ihr => rw [toDnf, clauses_distribute (isDnf_toDnf l), ihl, ihr, clauses]
  | or l r ihl ihr => rw [toDnf, clauses, ihl, ihr, clauses]

/-! ## Leaves -/

theorem mem_leaves_distributeRight {t : α} :
    t ∈ (distributeRight l r).leaves ↔ t ∈ l.leaves ∨ t ∈ r.leaves := by
  induction r with
  | leaf a => exact List.mem_append
  | and a b _ _ => exact List.mem_append
  | or a b iha ihb =>
    simp only [distributeRight, leaves, List.mem_append, iha, ihb]
    exact or_or_distrib_left.symm

theorem mem_leaves_distribute {t : α} :
    t ∈ (distribute l r).leaves ↔ t ∈ l.leaves ∨ t ∈ r.leaves := by
  induction l with
  | leaf a => exact mem_leaves_distributeRight
  | and a b _ _ => exact mem_leaves_distributeRight
  | or a b iha ihb =>
    simp only [distribute, leaves, List.mem_append, iha, ihb]
    exact or_or_distrib_right.symm

/-- **The disjunctive normal form has the leaves of the formula** and no others. -/
theorem mem_leaves_toDnf {t : α} : t ∈ e.toDnf.leaves ↔ t ∈ e.leaves := by
  induction e with
  | leaf a => exact Iff.rfl
  | and l r ihl ihr => simp only [toDnf, leaves, List.mem_append, mem_leaves_distribute, ihl, ihr]
  | or l r ihl ihr => simp only [toDnf, leaves, List.mem_append, ihl, ihr]

/-- **The leaves of the clauses are those of the formula.** -/
theorem mem_flatten_clauses {t : α} : t ∈ e.clauses.flatten ↔ t ∈ e.leaves := by
  rw [← clauses_toDnf, (isDnf_toDnf e).flatten_clauses, mem_leaves_toDnf]

end Formula

end PositiveLogic
