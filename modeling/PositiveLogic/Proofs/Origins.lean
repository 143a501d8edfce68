import PositiveLogic.Proofs.Bounds
import PositiveLogic.Proofs.Combination
import PositiveLogic.Proofs.Injection
import PositiveLogic.Proofs.Numbering
import PositiveLogic.Session.Operation

/-!
# Where leaves come from

An operation of a session makes new literals (it scans a text, parses one, or makes a token by hand)
or it works on values that the session keeps. In the second case it makes no leaf of its own: what it
gives has only leaves of these values, and perhaps the truth leaf. That one is added where a formula
is rebuilt from a list without clauses or from a clause without leaves, and nowhere else.

* `Operation.operands`, `Operation.mints`, `Operation.addsTruth`: which values an operation works on,
  whether it makes new literals, and whether it may add the truth leaf.
* `Session.origin_of_perform`: where the leaves of a value come from that is made of other values.
* `Session.numbered_of_perform`: the numbers of new literals.
-/

namespace PositiveLogic

/-! ## Conversions and combinations -/

namespace Formula

theorem eq_toDnf_of_toDnfBounded {α : Type} {limits : Limits} {e f : Formula α}
    (h : e.toDnfBounded limits = .ok f) : f = e.toDnf := by
  obtain ⟨_, -, hf⟩ := bind_eq_ok_iff.1 h
  exact (Except.ok.inj hf).symm

end Formula

namespace Clauses

variable {ls rs : Clauses Leaf} {t : Leaf}

/-- **The truth leaf fills the gaps**, and nothing else is added. -/
theorem mem_flatten_orTruth {cs : Clauses Leaf} :
    t ∈ cs.orTruth.flatten ↔ t ∈ cs.flatten ∨ t = Token.truth ∧ cs.hasGap = true := by
  have hclause : ∀ c : Clause Leaf,
      t ∈ c.orTruth ↔ t ∈ c ∨ t = Token.truth ∧ c.isEmpty = true := by
    intro c
    cases c <;> simp [Clause.orTruth]
  cases cs with
  | nil => simp [orTruth, hasGap]
  | cons c cs =>
    rw [orTruth_of_ne_nil (List.cons_ne_nil _ _), hasGap, List.isEmpty_cons, Bool.false_or]
    generalize c :: cs = ds
    induction ds with
    | nil => simp
    | cons d ds ih =>
      simp only [List.map_cons, List.flatten_cons, List.mem_append, hclause, ih, List.any_cons,
        Bool.or_eq_true]
      tauto

theorem mem_flatten_of_product (h : t ∈ (product ls rs).flatten) :
    t ∈ ls.flatten ∨ t ∈ rs.flatten := by
  obtain ⟨c, hc, ht⟩ := List.mem_flatten.1 h
  obtain ⟨l, hl, r, hr, rfl⟩ := mem_product.1 hc
  exact (List.mem_append.1 ht).imp (List.mem_flatten_of_mem hl) (List.mem_flatten_of_mem hr)

theorem mem_flatten_of_orTruth (h : t ∈ ls.orTruth.flatten ∨ t ∈ rs.orTruth.flatten) :
    (t ∈ ls.flatten ∨ t ∈ rs.flatten) ∨ t = Token.truth ∧ (ls.hasGap || rs.hasGap) = true := by
  rw [mem_flatten_orTruth, mem_flatten_orTruth] at h
  rcases h with (h | ⟨h, hgap⟩) | (h | ⟨h, hgap⟩)
  · exact .inl (.inl h)
  · exact .inr ⟨h, by simp [hgap]⟩
  · exact .inl (.inr h)
  · exact .inr ⟨h, by simp [hgap]⟩

end Clauses

/-! ## What an operation works on -/

namespace Session

variable {α : Type} {s : Session} {role : Role} {name : String}

/-- The leaves of the value of a name. -/
def leaves? (s : Session) (name : String) : Option (List Leaf) :=
  (s.get? name).map Value.leaves

/-- A leaf stands in one of the values with the given names. -/
def Supplies (s : Session) (names : List String) (t : Leaf) : Prop :=
  ∃ name ∈ names, ∃ ts, s.leaves? name = some ts ∧ t ∈ ts

/-- Whether a name stands for a list that has no clause, or a clause without leaves. -/
def hasGap (s : Session) (name : String) : Bool :=
  ((s.get? name).bind Value.clauses?).any Clauses.hasGap

theorem getAs_eq_ok_iff {as : Value → Option α} {a : α} :
    s.getAs as role name = .ok a ↔ ∃ v, s.get? name = some v ∧ as v = some a := by
  rw [← Option.bind_eq_some_iff, getAs]
  cases (s.get? name).bind as <;> simp

theorem made_eq_ok_iff {v w : Value} {n : Nat} :
    s.made v = .ok (w, n) ↔ w = v ∧ n = s.next := by
  simp [made, eq_comm]

theorem lift_eq_ok_iff {ε : Type} {error : ε → StepError} {value : α → Value} {x : Except ε α}
    {v : Value} {n : Nat} :
    s.lift error value x = .ok (v, n) ↔ ∃ a, x = .ok a ∧ v = value a ∧ n = s.next := by
  cases x <;> simp [lift, eq_comm]

theorem leaves?_of_token {t : Leaf} (h : s.getAs Value.token? role name = .ok t) :
    s.leaves? name = some [t] := by
  obtain ⟨v, hv, ht⟩ := getAs_eq_ok_iff.1 h
  rw [leaves?, hv]
  cases v with
  | token u => cases ht; rfl
  | formula e =>
    cases e with
    | leaf u => cases ht; rfl
    | _ => cases ht
  | _ => cases ht

theorem leaves?_of_formula {e : Formula Leaf} (h : s.getAs Value.formula? role name = .ok e) :
    s.leaves? name = some e.leaves := by
  obtain ⟨v, hv, he⟩ := getAs_eq_ok_iff.1 h
  rw [leaves?, hv]
  cases v with
  | token t => cases he; rfl
  | formula f => cases he; rfl
  | _ => cases he

theorem leaves?_of_clauses {cs : Clauses Leaf} (h : s.getAs Value.clauses? role name = .ok cs) :
    s.leaves? name = some cs.flatten := by
  obtain ⟨v, hv, hcs⟩ := getAs_eq_ok_iff.1 h
  rw [leaves?, hv]
  cases v with
  | clauses ds => cases hcs; rfl
  | _ => cases hcs

theorem hasGap_of_clauses {cs : Clauses Leaf} (h : s.getAs Value.clauses? role name = .ok cs) :
    s.hasGap name = cs.hasGap := by
  obtain ⟨v, hv, hcs⟩ := getAs_eq_ok_iff.1 h
  rw [hasGap, hv, Option.bind_some, hcs]
  rfl

theorem supplies_of_pick {clause place : Nat} {t : Leaf}
    (h : s.getAs (Value.pick? clause place) role name = .ok t) : s.Supplies [name] t := by
  obtain ⟨v, hv, ht⟩ := getAs_eq_ok_iff.1 h
  refine ⟨name, List.mem_singleton_self _, v.leaves, by rw [leaves?, hv]; rfl, ?_⟩
  cases v with
  | clauses cs =>
    obtain ⟨c, hc, ht⟩ := Option.bind_eq_some_iff.1 ht
    exact List.mem_flatten_of_mem (List.mem_of_getElem? hc) (List.mem_of_getElem? ht)
  | _ => exact List.mem_of_getElem? ht

theorem supplies_singleton {ts : List Leaf} {t : Leaf} (h : s.leaves? name = some ts)
    (ht : t ∈ ts) : s.Supplies [name] t :=
  ⟨name, List.mem_singleton_self _, ts, h, ht⟩

theorem supplies_pair {left right : String} {ls rs : List Leaf} {t : Leaf}
    (hl : s.leaves? left = some ls) (hr : s.leaves? right = some rs) (ht : t ∈ ls ∨ t ∈ rs) :
    s.Supplies [left, right] t := by
  rcases ht with ht | ht
  · exact ⟨left, by simp, ls, hl, ht⟩
  · exact ⟨right, by simp, rs, hr, ht⟩

end Session

namespace Operation

/-- The names of the values whose leaves may stand in what an operation makes. -/
def operands : Operation → List String
  | .scan _ | .truth | .token _ => []
  | .parse of _ _ | .pick of _ _ | .dnf of _ | .flatten of _ | .minimize of _ | .build of => [of]
  | .clauses rows => rows.flatten
  | .concat left right | .and left right | .or left right | .distribute left right
  | .combineAnd left right | .combineOr left right => [left, right]
  | .injectAt of replacement _ _ | .injectFor of _ replacement
  | .injectFormulaFor of _ replacement => [of, replacement]

/-- Whether an operation makes new literals. -/
def mints (s : Session) : Operation → Bool
  | .scan _ | .token _ => true
  | .parse of _ _ => (s.get? of).isNone
  | _ => false

/-- Whether an operation may give the truth leaf where its operands do not have it. -/
def addsTruth (s : Session) : Operation → Bool
  | .truth => true
  | .build of => s.hasGap of
  | .combineAnd left right | .combineOr left right => s.hasGap left || s.hasGap right
  | _ => false

end Operation

theorem exists_of_mem_mapM {ε α β : Type} {f : α → Except ε β} {xs : List α} {ys : List β}
    (h : xs.mapM f = .ok ys) {y : β} (hy : y ∈ ys) : ∃ x ∈ xs, f x = .ok y := by
  induction xs generalizing ys with
  | nil =>
    cases h
    cases hy
  | cons x xs ih =>
    rw [List.mapM_cons] at h
    obtain ⟨z, hz, h⟩ := bind_eq_ok_iff.1 h
    obtain ⟨zs, hzs, h⟩ := bind_eq_ok_iff.1 h
    obtain rfl := Except.ok.inj h
    rcases List.mem_cons.1 hy with rfl | hy
    · exact ⟨x, List.mem_cons_self, hz⟩
    · obtain ⟨w, hw, hfw⟩ := ih hzs hy
      exact ⟨w, List.mem_cons_of_mem _ hw, hfw⟩

namespace Session

variable {d : Dialect} {s : Session} {op : Operation} {v : Value} {n : Nat}

/-- A formula is parsed from a list of tokens or, where nothing has the name, from a text. -/
theorem perform_parse_cases {of text : String} {limits : Limits}
    (h : s.perform d (.parse of text limits) = .ok (v, n)) : ∃ e, v = .formula e ∧
      (s.get? of = none ∧ Formula.read d limits s.next text = .ok (e, n) ∨
        ∃ ts, s.get? of = some (.tokens ts) ∧ Formula.ofTokens limits.maxDepth ts = .ok e ∧
          n = s.next) := by
  cases hof : s.get? of with
  | none =>
    cases hread : Formula.read d limits s.next text with
    | error fault =>
      simp only [perform, hof, hread] at h
      cases h
    | ok read =>
      simp only [perform, hof, hread] at h
      cases h
      exact ⟨read.1, rfl, .inl ⟨rfl, rfl⟩⟩
  | some w =>
    simp only [perform, hof] at h
    cases w with
    | tokens ts =>
      obtain ⟨e, he, hv, hn⟩ := lift_eq_ok_iff.1 h
      exact ⟨e, hv, .inr ⟨ts, rfl, he, hn⟩⟩
    | _ => cases h

/-! ## Operations on values -/

/-- The limits decide whether an operation gives a value, but not which one. -/
theorem eq_of_limits {α : Type} {value : α → Value} {a : α} {limits : Option Limits}
    {bounded : Limits → Except TooManyClauses α}
    (hbounded : ∀ limits b, bounded limits = .ok b → b = a)
    (h : (match limits with
      | none => s.made (value a)
      | some limits => s.lift .tooManyClauses value (bounded limits)) = .ok (v, n)) :
    v = value a ∧ n = s.next := by
  cases limits with
  | none => exact made_eq_ok_iff.1 h
  | some limits =>
    obtain ⟨b, hb, hv, hn⟩ := lift_eq_ok_iff.1 h
    exact ⟨by rw [hv, hbounded limits b hb], hn⟩

/-- The leaves of a formula that is made of two formulas. -/
theorem origin_of_formulas {left right : String} {f : Formula Leaf → Formula Leaf → Formula Leaf}
    (hf : ∀ l r t, t ∈ (f l r).leaves → t ∈ l.leaves ∨ t ∈ r.leaves)
    (h : (do
      let l ← s.getAs Value.formula? .left left
      let r ← s.getAs Value.formula? .right right
      s.made (.formula (f l r))) = .ok (v, n)) :
    n = s.next ∧ v.tokens? = none ∧ ∀ t ∈ v.leaves, s.Supplies [left, right] t := by
  obtain ⟨l, hl, h⟩ := bind_eq_ok_iff.1 h
  obtain ⟨r, hr, h⟩ := bind_eq_ok_iff.1 h
  obtain ⟨rfl, rfl⟩ := made_eq_ok_iff.1 h
  exact ⟨rfl, rfl, fun t ht =>
    supplies_pair (leaves?_of_formula hl) (leaves?_of_formula hr) (hf l r t ht)⟩

/-- The leaves of a list of clauses that is made of two lists with their gaps filled. -/
theorem origin_of_clauses {left right : String} {f : Clauses Leaf → Clauses Leaf → Clauses Leaf}
    (hf : ∀ ls rs t, t ∈ (f ls rs).flatten → t ∈ ls.orTruth.flatten ∨ t ∈ rs.orTruth.flatten)
    (h : (do
      let ls ← s.getAs Value.clauses? .left left
      let rs ← s.getAs Value.clauses? .right right
      s.made (.clauses (f ls rs))) = .ok (v, n)) :
    n = s.next ∧ v.tokens? = none ∧ ∀ t ∈ v.leaves, s.Supplies [left, right] t ∨
      t = Token.truth ∧ (s.hasGap left || s.hasGap right) = true := by
  obtain ⟨ls, hls, h⟩ := bind_eq_ok_iff.1 h
  obtain ⟨rs, hrs, h⟩ := bind_eq_ok_iff.1 h
  obtain ⟨rfl, rfl⟩ := made_eq_ok_iff.1 h
  refine ⟨rfl, rfl, fun t ht => ?_⟩
  rw [hasGap_of_clauses hls, hasGap_of_clauses hrs]
  exact (Clauses.mem_flatten_of_orTruth (hf ls rs t ht)).imp_left
    (supplies_pair (leaves?_of_clauses hls) (leaves?_of_clauses hrs))

/-- **What is made of other values has their leaves**, no new numbers and, unless the operation adds
the truth leaf, no other leaf. -/
theorem origin_of_perform (h : s.perform d op = .ok (v, n)) (hmints : op.mints s = false) :
    n = s.next ∧ v.tokens? = none ∧
      ∀ t ∈ v.leaves, s.Supplies op.operands t ∨ t = Token.truth ∧ op.addsTruth s = true := by
  cases op with
  | scan text => cases hmints
  | token t => cases hmints
  | truth =>
    obtain ⟨rfl, rfl⟩ := made_eq_ok_iff.1 h
    exact ⟨rfl, rfl, fun t ht => .inr ⟨List.mem_singleton.1 ht, rfl⟩⟩
  | parse of text limits =>
    obtain ⟨e, rfl, ⟨hof, -⟩ | ⟨ts, hof, he, rfl⟩⟩ := perform_parse_cases h
    · rw [Operation.mints, hof] at hmints
      cases hmints
    · refine ⟨rfl, rfl, fun t ht => .inl (supplies_singleton (by rw [leaves?, hof]; rfl) ?_)⟩
      rw [Value.leaves, (Formula.derives_of_ofTokens he).1.leaves_eq] at ht
      exact (List.mem_filter.1 ht).1
  | pick of clause place =>
    obtain ⟨t, ht, h⟩ := bind_eq_ok_iff.1 h
    obtain ⟨rfl, rfl⟩ := made_eq_ok_iff.1 h
    refine ⟨rfl, rfl, fun u hu => .inl ?_⟩
    obtain rfl := List.mem_singleton.1 hu
    exact supplies_of_pick ht
  | clauses rows =>
    obtain ⟨cs, hcs, h⟩ := bind_eq_ok_iff.1 h
    obtain ⟨rfl, rfl⟩ := made_eq_ok_iff.1 h
    refine ⟨rfl, rfl, fun t ht => .inl ?_⟩
    obtain ⟨c, hc, ht⟩ := List.mem_flatten.1 ht
    obtain ⟨row, hrow, hc⟩ := exists_of_mem_mapM hcs hc
    obtain ⟨name, hname, ht⟩ := exists_of_mem_mapM hc ht
    exact ⟨name, List.mem_flatten_of_mem hrow hname, _, leaves?_of_token ht,
      List.mem_singleton_self _⟩
  | concat left right =>
    obtain ⟨ls, hls, h⟩ := bind_eq_ok_iff.1 h
    obtain ⟨rs, hrs, h⟩ := bind_eq_ok_iff.1 h
    obtain ⟨rfl, rfl⟩ := made_eq_ok_iff.1 h
    refine ⟨rfl, rfl, fun t ht => .inl ?_⟩
    rw [Value.leaves, List.flatten_append, List.mem_append] at ht
    exact supplies_pair (leaves?_of_clauses hls) (leaves?_of_clauses hrs) ht
  | and left right =>
    obtain ⟨hn, hv, hleaves⟩ := origin_of_formulas (fun _ _ _ => List.mem_append.1) h
    exact ⟨hn, hv, fun t ht => .inl (hleaves t ht)⟩
  | or left right =>
    obtain ⟨hn, hv, hleaves⟩ := origin_of_formulas (fun _ _ _ => List.mem_append.1) h
    exact ⟨hn, hv, fun t ht => .inl (hleaves t ht)⟩
  | distribute left right =>
    obtain ⟨hn, hv, hleaves⟩ :=
      origin_of_formulas (fun _ _ _ => Formula.mem_leaves_distribute.1) h
    exact ⟨hn, hv, fun t ht => .inl (hleaves t ht)⟩
  | dnf of limits =>
    obtain ⟨e, he, h⟩ := bind_eq_ok_iff.1 h
    obtain ⟨rfl, rfl⟩ := eq_of_limits (fun _ _ => Formula.eq_toDnf_of_toDnfBounded) h
    exact ⟨rfl, rfl, fun t ht => .inl
      (supplies_singleton (leaves?_of_formula he) (Formula.mem_leaves_toDnf.1 ht))⟩
  | flatten of limits =>
    obtain ⟨e, he, h⟩ := bind_eq_ok_iff.1 h
    obtain ⟨rfl, rfl⟩ := eq_of_limits (fun _ _ hcs => (Formula.clausesBounded_eq_ok_iff.1 hcs).2) h
    exact ⟨rfl, rfl, fun t ht => .inl
      (supplies_singleton (leaves?_of_formula he) (Formula.mem_flatten_clauses.1 ht))⟩
  | minimize of limits =>
    obtain ⟨e, he, h⟩ := bind_eq_ok_iff.1 h
    obtain ⟨rfl, rfl⟩ := eq_of_limits (fun _ _ hf => (Formula.minimizeBounded_eq_ok_iff.1 hf).2) h
    exact ⟨rfl, rfl, fun t ht => .inl
      (supplies_singleton (leaves?_of_formula he) (Formula.leaves_minimize_subset e ht))⟩
  | build of =>
    obtain ⟨cs, hcs, h⟩ := bind_eq_ok_iff.1 h
    obtain ⟨rfl, rfl⟩ := made_eq_ok_iff.1 h
    refine ⟨rfl, rfl, fun t ht => ?_⟩
    -- the leaves of a rebuilt formula are those of its clauses with the gaps filled
    rw [Value.leaves, Formula.leaves_ofClauses, Clauses.mem_flatten_orTruth,
      ← hasGap_of_clauses hcs] at ht
    exact ht.imp_left (supplies_singleton (leaves?_of_clauses hcs))
  | injectAt of replacement clause place =>
    obtain ⟨cs, hcs, h⟩ := bind_eq_ok_iff.1 h
    obtain ⟨e, he, h⟩ := bind_eq_ok_iff.1 h
    obtain ⟨ds, hds, rfl, rfl⟩ := lift_eq_ok_iff.1 h
    exact ⟨rfl, rfl, fun t ht => .inl (supplies_pair (leaves?_of_clauses hcs)
      (leaves?_of_formula he) (Clauses.mem_flatten_of_injectAt hds ht))⟩
  | injectFor of target replacement =>
    obtain ⟨cs, hcs, h⟩ := bind_eq_ok_iff.1 h
    obtain ⟨u, -, h⟩ := bind_eq_ok_iff.1 h
    obtain ⟨e, he, h⟩ := bind_eq_ok_iff.1 h
    obtain ⟨ds, hds, rfl, rfl⟩ := lift_eq_ok_iff.1 h
    obtain ⟨i, j, hds⟩ := Clauses.exists_injectAt_of_injectFor hds
    exact ⟨rfl, rfl, fun t ht => .inl (supplies_pair (leaves?_of_clauses hcs)
      (leaves?_of_formula he) (Clauses.mem_flatten_of_injectAt hds ht))⟩
  | injectFormulaFor of target replacement =>
    obtain ⟨e, he, h⟩ := bind_eq_ok_iff.1 h
    obtain ⟨u, -, h⟩ := bind_eq_ok_iff.1 h
    obtain ⟨r, hr, h⟩ := bind_eq_ok_iff.1 h
    obtain ⟨f, hf, rfl, rfl⟩ := lift_eq_ok_iff.1 h
    exact ⟨rfl, rfl, fun t ht => .inl (supplies_pair (leaves?_of_formula he)
      (leaves?_of_formula hr) (Formula.mem_leaves_of_injectFor hf ht))⟩
  | combineAnd left right =>
    refine origin_of_clauses (fun ls rs t ht => ?_) h
    rw [Clauses.combineAnd_eq] at ht
    exact Clauses.mem_flatten_of_product ht
  | combineOr left right =>
    refine origin_of_clauses (fun ls rs t ht => ?_) h
    rw [Clauses.combineOr_eq, List.flatten_append] at ht
    exact List.mem_append.1 ht

end Session

/-! ## Operations that make literals -/

/-- The literals among the leaves of a value. -/
def Value.literals (v : Value) : List Literal :=
  Token.literals v.leaves

namespace Session

variable {d : Dialect} {s : Session} {op : Operation} {v : Value} {n : Nat}

/-- **New literals have the next numbers, in order**, and the next number follows the last one. -/
theorem numbered_of_perform (h : s.perform d op = .ok (v, n)) (hmints : op.mints s = true) :
    v.literals.map Literal.id = List.range' s.next v.literals.length ∧
      n = s.next + v.literals.length := by
  cases op with
  | scan text =>
    cases hscan : Token.ofText d text with
    | error fault =>
      simp only [perform, hscan] at h
      cases h
    | ok ts =>
      simp only [perform, hscan] at h
      cases h
      exact Token.ids_stampAll s.next ts
  | token t =>
    cases h
    cases t <;> exact ⟨rfl, rfl⟩
  | parse of text limits =>
    obtain ⟨e, rfl, ⟨-, hread⟩ | ⟨ts, hof, -⟩⟩ := perform_parse_cases h
    · obtain ⟨ls, hleaves, hids, hnext⟩ := Formula.exists_literals_of_read hread
      rw [Value.literals, Value.leaves, hleaves, Token.literals_map_literal]
      exact ⟨hids, hnext⟩
    · rw [Operation.mints, hof] at hmints
      cases hmints
  | _ => cases hmints

/-- **A parsed formula has literals as leaves**: new ones, or those of the list of tokens that was
parsed. -/
theorem leaves_of_parse {of text : String} {limits : Limits}
    (h : s.perform d (.parse of text limits) = .ok (v, n)) :
    v.leaves = v.literals.map .literal ∧
      (s.get? of = none ∨
        ∃ ts, s.get? of = some (.tokens ts) ∧ v.literals = Token.literals ts) := by
  obtain ⟨e, rfl, ⟨hof, hread⟩ | ⟨ts, hof, he, -⟩⟩ := perform_parse_cases h
  · obtain ⟨ls, hleaves, -⟩ := Formula.exists_literals_of_read hread
    rw [Value.literals, Value.leaves, hleaves, Token.literals_map_literal]
    exact ⟨rfl, .inl hof⟩
  · have hleaves : e.leaves = (Token.literals ts).map .literal := by
      rw [(Formula.derives_of_ofTokens he).1.leaves_eq, Token.filter_isLiteral_eq]
    rw [Value.literals, Value.leaves, hleaves, Token.literals_map_literal]
    exact ⟨rfl, .inr ⟨ts, hof, rfl⟩⟩

end Session

end PositiveLogic
