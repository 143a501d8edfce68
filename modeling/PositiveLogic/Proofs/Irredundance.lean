import PositiveLogic.Proofs.Identity
import PositiveLogic.Proofs.Neighbours

/-!
# Clauses without redundancy

Nothing removes a leaf that stands twice in a clause, or a clause that contains another one. Where
the leaves of a formula differ there is nothing to remove: a conjunction joins clauses over different
leaves, and the clauses of the two sides of a disjunction share none.

* `Clauses.Irredundant same`: leaves are told apart by `same`; no clause holds a leaf twice, and no
  clause holds all leaves of a clause at another place.
* `Formula.irredundant_clauses`: the clauses of a formula with different leaves are irredundant. This
  is an induction on the formula, with `Clauses.Irredundant.product` for a conjunction and
  `Clauses.Irredundant.append` for a disjunction.
* `Formula.clauses_irredundant`: so are those of every formula that is read from a text, whatever
  texts its leaves have.
-/

namespace PositiveLogic

namespace Clause

variable {α : Type}

/-- Every leaf of the one clause stands in the other one. -/
def Within (same : α → α → Prop) (c c' : Clause α) : Prop := ∀ t ∈ c, ∃ u ∈ c', same t u

/-- No leaf of the one clause stands in the other one. -/
def Apart (same : α → α → Prop) (c c' : Clause α) : Prop := ∀ t ∈ c, ∀ u ∈ c', ¬ same t u

variable {same : α → α → Prop} {x x' y y' : Clause α}

theorem Apart.symm (hsymm : ∀ t u, same t u → same u t) (h : Apart same x y) : Apart same y x :=
  fun u hu t ht hsame => h t ht u hu (hsymm u t hsame)

/-- A leaf of a clause that is apart from the second part of another one stands in its first part. -/
theorem Within.of_apart_right (h : Within same x (x' ++ y')) (hapart : Apart same x y') :
    Within same x x' := by
  intro t ht
  obtain ⟨u, hu, hsame⟩ := h t ht
  rcases List.mem_append.1 hu with hu | hu
  · exact ⟨u, hu, hsame⟩
  · exact absurd hsame (hapart t ht u hu)

/-- A leaf of a clause that is apart from the first part of another one stands in its second part. -/
theorem Within.of_apart_left (h : Within same y (x' ++ y')) (hapart : Apart same y x') :
    Within same y y' := by
  intro t ht
  obtain ⟨u, hu, hsame⟩ := h t ht
  rcases List.mem_append.1 hu with hu | hu
  · exact absurd hsame (hapart t ht u hu)
  · exact ⟨u, hu, hsame⟩

theorem Within.left (h : Within same (x ++ y) x') : Within same x x' :=
  fun t ht => h t (List.mem_append_left _ ht)

theorem Within.right (h : Within same (x ++ y) x') : Within same y x' :=
  fun t ht => h t (List.mem_append_right _ ht)

theorem Apart.not_within (h : Apart same x y) (hne : x ≠ []) : ¬ Within same x y := by
  intro hwithin
  obtain ⟨t, ht⟩ := List.exists_mem_of_ne_nil x hne
  obtain ⟨u, hu, hsame⟩ := hwithin t ht
  exact h t ht u hu hsame

end Clause

namespace Clauses

variable {α : Type} {same : α → α → Prop} {ls rs : Clauses α}

/-- No clause holds a leaf twice, and none is within a clause at another place. -/
structure Irredundant (same : α → α → Prop) (cs : Clauses α) : Prop where
  distinct : ∀ c ∈ cs, c.Pairwise fun t u => ¬ same t u
  not_within : cs.Pairwise fun c c' => ¬ Clause.Within same c c' ∧ ¬ Clause.Within same c' c

/-- Clauses one after the other, if those of the one list are apart from those of the other. -/
theorem Irredundant.append (hl : ls.Irredundant same) (hr : rs.Irredundant same)
    (hls : ∀ c ∈ ls, c ≠ []) (hrs : ∀ c ∈ rs, c ≠ [])
    (hapart : ∀ x ∈ ls, ∀ y ∈ rs, Clause.Apart same x y ∧ Clause.Apart same y x) :
    (ls ++ rs).Irredundant same where
  distinct c hc := by
    rcases List.mem_append.1 hc with hc | hc
    · exact hl.distinct c hc
    · exact hr.distinct c hc
  not_within := by
    refine List.pairwise_append.2 ⟨hl.not_within, hr.not_within, fun x hx y hy => ?_⟩
    obtain ⟨hxy, hyx⟩ := hapart x hx y hy
    exact ⟨hxy.not_within (hls x hx), hyx.not_within (hrs y hy)⟩

/-- **A product of clauses over different leaves is irredundant**, if its sides are. -/
theorem Irredundant.product (hl : ls.Irredundant same) (hr : rs.Irredundant same)
    (hapart : ∀ x ∈ ls, ∀ y ∈ rs, Clause.Apart same x y ∧ Clause.Apart same y x) :
    (product ls rs).Irredundant same where
  distinct c hc := by
    obtain ⟨x, hx, y, hy, rfl⟩ := mem_product.1 hc
    exact List.pairwise_append.2 ⟨hl.distinct x hx, hr.distinct y hy, (hapart x hx y hy).1⟩
  not_within := by
    have hleft : ∀ {x x' y y' : Clause α}, x ∈ ls → y' ∈ rs →
        Clause.Within same (x ++ y) (x' ++ y') → Clause.Within same x x' :=
      fun hx hy' h => h.left.of_apart_right (hapart _ hx _ hy').1
    have hright : ∀ {x x' y y' : Clause α}, x' ∈ ls → y ∈ rs →
        Clause.Within same (x ++ y) (x' ++ y') → Clause.Within same y y' :=
      fun hx' hy h => h.right.of_apart_left (hapart _ hx' _ hy).2
    refine List.pairwise_flatMap.2 ⟨fun x hx => List.pairwise_map.2 ?_, ?_⟩
    · -- one clause on the left: those on the right tell the joined clauses apart
      refine hr.not_within.imp_of_mem fun hy hy' h => ?_
      exact ⟨fun hw => h.1 (hright hx hy hw), fun hw => h.2 (hright hx hy' hw)⟩
    · refine hl.not_within.imp_of_mem fun hx hx' h => ?_
      intro c hc c' hc'
      obtain ⟨y, hy, rfl⟩ := List.mem_map.1 hc
      obtain ⟨y', hy', rfl⟩ := List.mem_map.1 hc'
      exact ⟨fun hw => h.1 (hleft hx hy' hw), fun hw => h.2 (hleft hx' hy hw)⟩

end Clauses

namespace Formula

variable {α : Type} {same : α → α → Prop} {e : Formula α}

/-- **The clauses of a formula with different leaves are irredundant.** -/
theorem irredundant_clauses (hsymm : ∀ t u, same t u → same u t)
    (h : e.leaves.Pairwise fun t u => ¬ same t u) : e.clauses.Irredundant same := by
  -- clauses of sides with different leaves are apart
  have hapart : ∀ {l r : Formula α}, (∀ t ∈ l.leaves, ∀ u ∈ r.leaves, ¬ same t u) →
      ∀ x ∈ l.clauses, ∀ y ∈ r.clauses, Clause.Apart same x y ∧ Clause.Apart same y x := by
    intro l r h x hx y hy
    have hxy : Clause.Apart same x y := fun t ht u hu =>
      h t ((sublist_leaves_of_mem_clauses hx).subset ht) u
        ((sublist_leaves_of_mem_clauses hy).subset hu)
    exact ⟨hxy, hxy.symm hsymm⟩
  induction e with
  | leaf a => exact ⟨fun c hc => by rw [List.mem_singleton.1 hc]; exact List.pairwise_singleton _ _,
      List.pairwise_singleton _ _⟩
  | and l r ihl ihr =>
    obtain ⟨hl, hr, hlr⟩ := List.pairwise_append.1 h
    exact (ihl hl).product (ihr hr) (hapart hlr)
  | or l r ihl ihr =>
    obtain ⟨hl, hr, hlr⟩ := List.pairwise_append.1 h
    exact (ihl hl).append (ihr hr) (fun _ => ne_nil_of_mem_clauses)
      (fun _ => ne_nil_of_mem_clauses) (hapart hlr)

end Formula

/-! ## Leaves told apart by their numbers -/

theorem Token.identical_symm {t u : Leaf} (h : identical t u = true) : identical u t = true := by
  cases t with
  | literal l =>
    cases u with
    | literal l' =>
      simp only [identical, Bool.and_eq_true, beq_iff_eq] at h ⊢
      exact ⟨h.1.symm, h.2.symm⟩
    | _ => cases h
  | _ =>
    obtain rfl := beq_iff_eq.1 h
    exact h

theorem pairwise_words_range' (next : Nat) {len : Nat} (h : len ≤ UInt64.size) :
    (List.range' next len).Pairwise fun i j => UInt64.ofNat i ≠ UInt64.ofNat j := by
  have hincreasing : (List.range' next len).Pairwise (· < ·) := List.pairwise_lt_range' 1
  refine hincreasing.imp_of_mem fun {i j} hi hj hlt heq => ?_
  rw [List.mem_range'_1] at hi hj
  have hmod : i % UInt64.size = j % UInt64.size := congrArg UInt64.toNat heq
  simp only [UInt64.size] at h hmod
  omega

namespace Formula

variable {d : Dialect} {limits : Limits} {next n : Nat} {s : String} {e : Formula Leaf}

/-- **The leaves of a reading are told apart by their numbers**, if 64 bits suffice for them. -/
theorem pairwise_identical_of_read (h : read d limits next s = .ok (e, n))
    (hsize : e.leaves.length ≤ UInt64.size) :
    e.leaves.Pairwise fun t u => ¬ Token.identical t u = true := by
  obtain ⟨ls, hleaves, hids, -⟩ := exists_literals_of_read h
  rw [hleaves, List.length_map] at hsize
  have hwords := pairwise_words_range' next hsize
  rw [← hids, List.pairwise_map] at hwords
  rw [hleaves, List.pairwise_map]
  refine hwords.imp fun hne hsame => hne ?_
  rw [Token.identical, Bool.and_eq_true, beq_iff_eq] at hsame
  exact hsame.1

/-- **Clauses are irredundant where the leaves are told apart by their numbers**, and they are so
told apart in every formula that is read from a text with no more leaves than 64 bits can number. As
values the leaves of a text always differ. -/
theorem clauses_irredundant :
    (∀ e : Formula Leaf, (e.leaves.Pairwise fun t u => ¬ Token.identical t u = true) →
      e.clauses.Irredundant fun t u => Token.identical t u = true) ∧
    ∀ d limits next s e n,
      read d limits next s = .ok (e, n) ∨ readChecked d limits next s = .ok (e, n) →
      e.clauses.Irredundant (· = ·) ∧
      (e.leaves.length ≤ UInt64.size →
        (e.leaves.Pairwise fun t u => ¬ Token.identical t u = true) ∧
        e.clauses.Irredundant fun t u => Token.identical t u = true) := by
  have hidentical : ∀ e : Formula Leaf,
      (e.leaves.Pairwise fun t u => ¬ Token.identical t u = true) →
      e.clauses.Irredundant fun t u => Token.identical t u = true := fun e h =>
    irredundant_clauses (fun _ _ => Token.identical_symm) h
  refine ⟨hidentical, fun d limits next s e n h => ?_⟩
  have hread : read d limits next s = .ok (e, n) := h.elim id readChecked_eq_ok_iff.1
  refine ⟨irredundant_clauses (fun _ _ => Eq.symm) (nodup_leaves_of_read hread), fun hsize => ?_⟩
  have hleaves := pairwise_identical_of_read hread hsize
  exact ⟨hleaves, hidentical e hleaves⟩

/-- Four places with two texts. -/
theorem clauses_irredundant_texts : ∃ e n, read {} {} 1 "(a||a)&&(a||b)" = .ok (e, n) ∧
    e.clauses.map Clause.texts = [["a", "a"], ["a", "b"], ["a", "a"], ["a", "b"]] ∧
    (e.leaves.Pairwise fun t u => ¬ Token.identical t u = true) ∧
    e.clauses.Irredundant fun t u => Token.identical t u = true := by
  have hread : read {} {} 1 "(a||a)&&(a||b)" = .ok (.and
      (.or (.leaf (.literal ⟨1, [], "a", none⟩)) (.leaf (.literal ⟨2, [], "a", none⟩)))
      (.or (.leaf (.literal ⟨3, [], "a", none⟩)) (.leaf (.literal ⟨4, [], "b", none⟩))), 5) := by
    cbv
  obtain ⟨hleaves, -⟩ := (clauses_irredundant.2 _ _ _ _ _ _ (.inl hread)).2 (by decide)
  exact ⟨_, _, hread, rfl, hleaves, clauses_irredundant.1 _ hleaves⟩

end Formula

end PositiveLogic
