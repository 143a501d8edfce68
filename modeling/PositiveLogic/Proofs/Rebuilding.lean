import PositiveLogic.Clause.Factoring
import PositiveLogic.Proofs.Factoring
import PositiveLogic.Proofs.NormalForm
import PositiveLogic.Proofs.Printing

/-!
# Rebuilt formulas

A formula that is rebuilt from clauses leans to the left in both of its chains, so it is in
disjunctive normal form, is printed without groups, and has the clauses it was built from. Where
nothing is listed it has the truth leaf, which `Clause.orTruth` and `Clauses.orTruth` put there.

* `Formula.clauses_ofClauses`: listing the clauses of a rebuilt formula gives the list it was built
  from.
* `Formula.rebuilding_listing_inverse`: rebuilding and listing undo each other, with the meaning kept
  and nothing left to convert in between.
* `Formula.nesting_ofClauses`: a rebuilt formula is printed without groups.
* `Formula.Derives.isDnf`: conversely, what is written without groups is in disjunctive normal form.
-/

namespace PositiveLogic

/-- A clause, with the truth leaf in the place of no leaf. -/
def Clause.orTruth : Clause Leaf → Clause Leaf
  | [] => [Token.truth]
  | t :: ts => t :: ts

theorem Clause.orTruth_eq_self {c : Clause Leaf} (h : c ≠ []) : c.orTruth = c := by
  cases c with
  | nil => exact absurd rfl h
  | cons t ts => rfl

namespace Clauses

/-- A list of clauses, with the truth leaf in the place of no clause and of no leaf. -/
def orTruth : Clauses Leaf → Clauses Leaf
  | [] => [[Token.truth]]
  | c :: cs => (c :: cs).map Clause.orTruth

theorem orTruth_of_ne_nil {cs : Clauses Leaf} (h : cs ≠ []) :
    cs.orTruth = cs.map Clause.orTruth := by
  cases cs with
  | nil => exact absurd rfl h
  | cons c cs => rfl

/-- Whether a list has no clause, or a clause without leaves. -/
def hasGap (cs : Clauses Leaf) : Bool :=
  cs.isEmpty || cs.any List.isEmpty

theorem hasGap_eq_false_iff {cs : Clauses Leaf} :
    cs.hasGap = false ↔ cs ≠ [] ∧ ∀ c ∈ cs, c ≠ [] := by
  simp [hasGap]

/-- **A list without gaps stays as it is.** -/
theorem orTruth_eq_self {cs : Clauses Leaf} (h : cs.hasGap = false) : cs.orTruth = cs := by
  obtain ⟨hne, hcs⟩ := hasGap_eq_false_iff.1 h
  rw [orTruth_of_ne_nil hne]
  calc cs.map Clause.orTruth
      = cs.map id := List.map_congr_left fun c hc => Clause.orTruth_eq_self (hcs c hc)
    _ = cs := List.map_id cs

end Clauses

namespace Formula

/-! ## Clauses of rebuilt formulas -/

theorem orFree_ofClause (c : Clause Leaf) : (ofClause c).OrFree := by
  cases c with
  | nil => trivial
  | cons t ts =>
    exact List.foldlRecOn ts _ (motive := OrFree) trivial fun e he u _ => ⟨he, trivial⟩

theorem leaves_ofClause (c : Clause Leaf) : (ofClause c).leaves = c.orTruth := by
  cases c with
  | nil => rfl
  | cons t ts =>
    have hchain : ∀ (us : Clause Leaf) (e : Formula Leaf),
        (us.foldl (fun e t => and e (leaf t)) e).leaves = e.leaves ++ us := by
      intro us
      induction us with
      | nil => intro e; exact (List.append_nil _).symm
      | cons u us ih =>
        intro e
        rw [List.foldl_cons, ih, leaves, leaves, List.append_assoc]
        rfl
    exact hchain ts (leaf t)

theorem clauses_ofClause (c : Clause Leaf) : (ofClause c).clauses = [c.orTruth] := by
  rw [(orFree_ofClause c).clauses_eq, leaves_ofClause]

theorem isDnf_ofClauses (cs : Clauses Leaf) : (ofClauses cs).IsDnf := by
  cases cs with
  | nil => trivial
  | cons c cs =>
    exact List.foldlRecOn cs _ (motive := IsDnf) (orFree_ofClause c).isDnf
      fun e he c _ => ⟨he, (orFree_ofClause c).isDnf⟩

/-- **Rebuilding is undone by listing the clauses.** -/
theorem clauses_ofClauses (cs : Clauses Leaf) : (ofClauses cs).clauses = cs.orTruth := by
  cases cs with
  | nil => rfl
  | cons c cs =>
    have hchain : ∀ (ds : Clauses Leaf) (e : Formula Leaf),
        (ds.foldl (fun e c => or e (ofClause c)) e).clauses =
          e.clauses ++ ds.map Clause.orTruth := by
      intro ds
      induction ds with
      | nil => intro e; exact (List.append_nil _).symm
      | cons d ds ih =>
        intro e
        rw [List.foldl_cons, ih, clauses, clauses_ofClause, List.append_assoc]
        rfl
    rw [ofClauses, hchain, clauses_ofClause]
    rfl

theorem leaves_ofClauses (cs : Clauses Leaf) : (ofClauses cs).leaves = cs.orTruth.flatten := by
  rw [← (isDnf_ofClauses cs).flatten_clauses, clauses_ofClauses]

/-- **The clauses of a formula have no gaps.** -/
theorem hasGap_clauses (e : Formula Leaf) : e.clauses.hasGap = false :=
  Clauses.hasGap_eq_false_iff.2 ⟨e.clauses_ne_nil, fun _ hc => ne_nil_of_mem_clauses hc⟩

theorem orTruth_clauses (e : Formula Leaf) : e.clauses.orTruth = e.clauses :=
  Clauses.orTruth_eq_self e.hasGap_clauses

theorem satisfied_ofClauses (p : Leaf → Bool) (cs : Clauses Leaf) :
    (ofClauses cs).satisfied p = (cs.isEmpty || cs.satisfied p) := by
  cases cs with
  | nil => rfl
  | cons c cs =>
    rw [satisfied_eq, Clauses.satisfied_eq, value_ofClauses p (List.cons_ne_nil c cs)]
    rfl

/-- **Rebuilding and listing are inverse.** The clauses of a rebuilt formula are those it was built
from, up to the truth leaf for nothing; it is in disjunctive normal form already, and it means the
same. So the clauses of a formula survive rebuilding and another conversion. -/
theorem rebuilding_listing_inverse (cs : Clauses Leaf) (e : Formula Leaf) :
    (ofClauses cs).clauses = cs.orTruth ∧
    (ofClauses cs).IsDnf ∧ (ofClauses cs).toDnf = ofClauses cs ∧
    (∀ p, (ofClauses cs).satisfied p = (cs.isEmpty || cs.satisfied p)) ∧
    (ofClauses e.clauses).toDnf.clauses = e.toDnf.clauses ∧
    (ofClauses e.toDnf.clauses).toDnf.clauses = e.toDnf.clauses := by
  refine ⟨clauses_ofClauses cs, isDnf_ofClauses cs, (isDnf_ofClauses cs).toDnf_eq,
    fun p => satisfied_ofClauses p cs, ?_, ?_⟩
  · rw [clauses_toDnf, clauses_ofClauses, orTruth_clauses, clauses_toDnf]
  · rw [clauses_toDnf, clauses_ofClauses, orTruth_clauses]

/-! ## Groups of rebuilt formulas -/

theorem nesting_ofClause (c : Clause Leaf) {place : Place} (h : place.groupsAnd = false) :
    Token.nesting ((ofClause c).toTokensAt place) = 0 := by
  cases c with
  | nil => rfl
  | cons t ts =>
    refine List.foldlRecOn ts _ (motive := fun e : Formula Leaf => ∀ place : Place,
      place.groupsAnd = false → Token.nesting (e.toTokensAt place) = 0)
      (fun _ _ => rfl) (fun e he u _ place h => ?_) place h
    rw [nesting_toTokensAt_and h, he .andLeft rfl]
    rfl

/-- **A rebuilt formula is printed without groups.** -/
theorem nesting_ofClauses (cs : Clauses Leaf) : Token.nesting (ofClauses cs).toTokens = 0 := by
  have hgroups : ∀ {place : Place}, place.groupsOr = false → place.groupsAnd = false := by
    intro place h
    cases place with
    | andRight => cases h
    | _ => rfl
  cases cs with
  | nil => rfl
  | cons c cs =>
    refine List.foldlRecOn cs _ (motive := fun e : Formula Leaf => ∀ place : Place,
      place.groupsOr = false → Token.nesting (e.toTokensAt place) = 0)
      (fun _ h => nesting_ofClause c (hgroups h)) (fun e he c _ place h => ?_) .top rfl
    rw [nesting_toTokensAt_or h, he .orLeft rfl, nesting_ofClause c rfl]
    rfl

/-- **A phrase without groups is in disjunctive normal form**, and it has disjunctions only if it is
an expression. -/
theorem Derives.isDnf {α : Type} {p : Phrase} {ts : List (Token α)} {e : Formula (Token α)}
    (h : Derives p ts e) (hts : Token.nesting ts = 0) : (p ≠ .expr → e.OrFree) ∧ e.IsDnf := by
  induction h with
  | literal a => exact ⟨fun _ => trivial, trivial⟩
  | group h _ =>
    rw [h.nesting_group] at hts
    exact absurd hts (Nat.succ_ne_zero _)
  | factor _ ih => exact ⟨fun _ => (ih hts).1 (by decide), (ih hts).2⟩
  | @and _ _ l r hl hr ihl ihr =>
    rw [hl.nesting_join hr rfl, Nat.max_eq_zero_iff] at hts
    have hfree : (Formula.and l r).OrFree := ⟨(ihl hts.1).1 (by decide), (ihr hts.2).1 (by decide)⟩
    exact ⟨fun _ => hfree, hfree.isDnf⟩
  | term _ ih => exact ⟨fun h => absurd rfl h, (ih hts).2⟩
  | or hl hr ihl ihr =>
    rw [hl.nesting_join hr rfl, Nat.max_eq_zero_iff] at hts
    exact ⟨fun h => absurd rfl h, (ihl hts.1).2, (ihr hts.2).2⟩

end Formula

end PositiveLogic
