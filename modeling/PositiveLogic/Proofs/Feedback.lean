import PositiveLogic.Command.Basic
import PositiveLogic.Proofs.Bounds
import PositiveLogic.Proofs.FactoredForm
import PositiveLogic.Proofs.Neighbours
import PositiveLogic.Proofs.Numbering
import PositiveLogic.Proofs.Translation

/-!
# Feeding answers back

The commands `dnf` and `minimize` answer with a text of the dialect, which can be asked about in
turn. If no literal is a call, the answer is read back, with new numbers for the literals.

* `Formula.PlainIn.read_write_clauses`: the written clauses are read back under any limits, because
  they have no groups.
* `Formula.read_write_minimize`: the written factored formula is read back under the limits of the
  text. It has a group only where two clauses share a leaf, and then the text had a group too.
* `Clauses.toJson_eq_of_written` and `Formula.value_eq_of_written`: the numbers have no say in the
  data of clauses, nor in the value of a formula under a predicate that does not see them.
* `Request.output_reads_back`: so the answer stands for the same clauses or is true for the same
  literals, and no limit that the text kept to is too narrow for the answer.
-/

namespace PositiveLogic

/-! ## What is written, without the numbers -/

theorem Token.display_eq (t : Leaf) : t.display = t.written.displayWith Atom.display := by
  cases t <;> rfl

theorem Clauses.length_eq_of_written {cs ds : Clauses Leaf}
    (h : cs.map (List.map Token.written) = ds.map (List.map Token.written)) :
    cs.length = ds.length := by
  have hlength := congrArg List.length h
  rwa [List.length_map, List.length_map] at hlength

/-- **The data of clauses shows what is written only.** -/
theorem Clauses.toJson_eq_of_written {cs ds : Clauses Leaf}
    (h : cs.map (List.map Token.written) = ds.map (List.map Token.written)) :
    cs.toJson = ds.toJson := by
  have hwritten : ∀ cs : Clauses Leaf, cs.toJson = .array ((cs.map (List.map Token.written)).map
      fun c => .texts (c.map (Token.displayWith Atom.display))) := by
    intro cs
    simp only [toJson, Clause.texts, List.map_map, Function.comp_def, funext Token.display_eq]
  rw [hwritten, h, ← hwritten]

namespace Formula

variable {d : Dialect} {limits : Limits} {next n : Nat} {s : String} {e f : Formula Leaf}

/-- **Formulas that are written alike have the same value**, if leaves that are written alike do. -/
theorem value_eq_of_written {p : Leaf → Bool} (h : e.map Token.written = f.map Token.written)
    (hp : ∀ t ∈ e.leaves, ∀ u ∈ f.leaves, t.written = u.written → t.value p = u.value p) :
    e.value p = f.value p := by
  induction e generalizing f with
  | leaf t =>
    cases f with
    | leaf u => exact hp t (List.mem_singleton_self t) u (List.mem_singleton_self u) (leaf.inj h)
    | _ => cases h
  | and l r ihl ihr =>
    cases f with
    | and l' r' =>
      obtain ⟨hl, hr⟩ := and.inj h
      rw [value, value, ihl hl, ihr hr]
      · exact fun t ht u hu => hp t (List.mem_append_right _ ht) u (List.mem_append_right _ hu)
      · exact fun t ht u hu => hp t (List.mem_append_left _ ht) u (List.mem_append_left _ hu)
    | _ => cases h
  | or l r ihl ihr =>
    cases f with
    | or l' r' =>
      obtain ⟨hl, hr⟩ := or.inj h
      rw [value, value, ihl hl, ihr hr]
      · exact fun t ht u hu => hp t (List.mem_append_right _ ht) u (List.mem_append_right _ hu)
      · exact fun t ht u hu => hp t (List.mem_append_left _ ht) u (List.mem_append_left _ hu)
    | _ => cases h

theorem written_clauses (h : e.map Token.written = f.map Token.written) :
    e.clauses.map (List.map Token.written) = f.clauses.map (List.map Token.written) := by
  rw [← clauses_map, h, clauses_map]

/-! ## Readings -/

theorem read_unique {limits' : Limits} {m : Nat} (h : read d limits next s = .ok (e, n))
    (h' : read d limits' next s = .ok (f, m)) : f = e := by
  obtain ⟨ts, hscan, hparse, -⟩ := read_eq_ok_iff.1 h
  obtain ⟨ts', hscan', hparse', -⟩ := read_eq_ok_iff.1 h'
  obtain rfl := Except.ok.inj (hscan.symm.trans hscan')
  exact (derives_of_ofTokens hparse').1.tree_unique (derives_of_ofTokens hparse).1

theorem plainIn_of_read (h : read d limits next s = .ok (e, n))
    (hcalls : ∀ l, .literal l ∈ e.leaves → l.atom.call = none) : e.PlainIn d := by
  obtain ⟨ts, hscan, hparse, -⟩ := read_eq_ok_iff.1 h
  intro t ht
  obtain ⟨l, rfl, -⟩ := exists_literal_of_read h ht
  have hcall := hcalls l ht
  rw [(derives_of_ofTokens hparse).1.leaves_eq] at ht
  have hmem := List.mem_map_of_mem (f := Token.written) (List.mem_of_mem_filter ht)
  rw [Token.map_written_stampAll] at hmem
  exact (Token.scannable_of_scan hscan hmem).isPlain hcall

theorem PlainIn.mono (h : e.PlainIn d) (hsub : f.leaves ⊆ e.leaves) : f.PlainIn d :=
  fun t ht => h t (hsub ht)

/-- **A factored formula nests its groups no deeper than the text** that it comes from. -/
theorem nesting_minimize_le_of_read (h : read d limits next s = .ok (e, n)) :
    Token.nesting e.minimize.toTokens ≤ limits.maxDepth := by
  obtain ⟨ts, -, hparse, -⟩ := read_eq_ok_iff.1 h
  obtain ⟨hderives, hle⟩ := derives_of_ofTokens hparse
  rw [minimize_eq]
  rcases Nat.eq_zero_or_pos (Token.nesting (Token.stampAll next ts).1) with hzero | hpos
  · -- without groups the clauses are the leaves of the text, which differ in their numbers
    have hnodup := nodup_leaves_of_read h
    rw [← (hderives.isDnf hzero).2.flatten_clauses] at hnodup
    rw [Clauses.nesting_factor_eq_zero e.clauses_ne_nil hnodup]
    exact Nat.zero_le _
  · exact (Clauses.nesting_factor_le _).trans ((Nat.succ_le_of_lt hpos).trans hle)

/-! ## Reading an answer -/

/-- **The written clauses of a formula are read back**, even if no groups are allowed. -/
theorem PlainIn.read_write_clauses (he : e.PlainIn d) (hd : d.WellFormed) (limits : Limits)
    (next : Nat) : ∃ f n, read d limits next (e.clauses.write d) = .ok (f, n) ∧
      f.clauses.map (List.map Token.written) = e.clauses.map (List.map Token.written) := by
  have hsub : (ofClauses e.clauses).leaves ⊆ e.leaves := by
    intro t ht
    rw [leaves_ofClauses, orTruth_clauses] at ht
    exact mem_flatten_clauses.1 ht
  have hle : Token.nesting (ofClauses e.clauses).toTokens ≤ limits.maxDepth := by
    rw [nesting_ofClauses]
    exact Nat.zero_le _
  obtain ⟨f, n, hread, hwritten⟩ := (he.mono hsub).read_write hd hle next
  refine ⟨f, n, hread, ?_⟩
  rw [written_clauses hwritten, clauses_ofClauses, orTruth_clauses]

/-- **A written factored formula is read back** under the limits of the text it comes from. -/
theorem read_write_minimize (hd : d.WellFormed) (h : read d limits next s = .ok (e, n))
    (hplain : e.PlainIn d) (next' : Nat) :
    ∃ f m, read d limits next' (e.minimize.write d) = .ok (f, m) ∧
      f.map Token.written = e.minimize.map Token.written :=
  (hplain.mono e.leaves_minimize_subset).read_write hd (nesting_minimize_le_of_read h) next'

/-- **What is written like a factored formula has the value of the formula**, under a predicate that
does not see numbers, where no number stands for truth. -/
theorem value_eq_of_written_minimize {p : Leaf → Bool}
    (hp : ∀ t u : Leaf, t.written = u.written → p t = p u)
    (htruth : ∀ t ∈ e.leaves, t.isTruth = false) (htruth' : ∀ t ∈ f.leaves, t.isTruth = false)
    (h : f.map Token.written = e.minimize.map Token.written) : f.value p = e.value p := by
  rw [← value_minimize p e]
  refine value_eq_of_written h fun t ht u hu hwritten => ?_
  rw [Token.value, Token.value, htruth' t ht, htruth u (e.leaves_minimize_subset hu),
    hp t u hwritten]

end Formula

/-! ## Commands -/

namespace Command

theorem isSome_witness? (truths : List String) (cs : Clauses Leaf) :
    (witness? truths cs).isSome = cs.value fun t => truths.contains t.display :=
  Clauses.satisfied_eq _ cs

end Command

/-- What an evaluation answers: whether there is a witness, and the witness. -/
def Output.verdict (satisfied : Bool) (witness : Json) : Output :=
  .json (.record [("satisfied", .bool satisfied), ("witness", witness)])

namespace Request

variable {r : Request} {e : Formula Leaf} {o : Output}

theorem formula_eq_ok_iff : r.formula = .ok e ↔
    ∃ n, Formula.read r.dialect r.limits 1 r.expression = .ok (e, n) := by
  simp only [← Formula.readChecked_eq_ok_iff, formula]
  cases Formula.readChecked r.dialect r.limits 1 r.expression with
  | error fault => simp
  | ok numbered => simp [Prod.ext_iff]

theorem bounded_eq_ok_iff {α : Type} {x : Except TooManyClauses α} {a : α} :
    bounded x = .ok a ↔ x = .ok a := by
  cases x <;> simp [bounded, Except.mapError]

/-- `dnf` answers with the clauses, if they are not too many. -/
theorem execute_dnf_eq_ok_iff (written : Bool) (h : r.formula = .ok e) :
    { r with command := .dnf written }.execute = .ok o ↔
      e.clauses.length ≤ r.limits.maxClauses ∧
        o = if written then .text (e.clauses.write r.dialect) else .json e.clauses.toJson := by
  have h : { r with command := .dnf written }.formula = .ok e := h
  simp only [execute, h, bind_eq_ok_iff, bounded_eq_ok_iff, Formula.clausesBounded_eq_ok_iff]
  simp [pure, Except.pure, eq_comm]

/-- `minimize` answers with the factored formula, if its clauses are not too many. -/
theorem execute_minimize_eq_ok_iff (h : r.formula = .ok e) :
    { r with command := .minimize }.execute = .ok o ↔
      e.clauses.length ≤ r.limits.maxClauses ∧ o = .text (e.minimize.write r.dialect) := by
  have h : { r with command := .minimize }.formula = .ok e := h
  simp only [execute, h, bind_eq_ok_iff, bounded_eq_ok_iff, Formula.minimizeBounded_eq_ok_iff]
  simp [pure, Except.pure, eq_comm]

/-- `eval` answers with the value under the literals that hold. -/
theorem execute_eval_eq_ok_iff (truths : List String) (h : r.formula = .ok e) :
    { r with command := .eval truths }.execute = .ok o ↔
      ∃ all, Command.allTruths truths r.input = .ok all ∧
        e.clauses.length ≤ r.limits.maxClauses ∧
        o = .verdict (e.value fun t => all.contains t.display)
          (((Command.witness? all e.clauses).map fun c => .texts (Clause.texts c)).getD .null) := by
  have h : { r with command := .eval truths }.formula = .ok e := h
  simp only [execute, h, bind_eq_ok_iff, bounded_eq_ok_iff, Formula.clausesBounded_eq_ok_iff]
  simp [pure, Except.pure, eq_comm, Output.verdict, Command.isSome_witness?,
    Formula.value_clauses]

/-! ## Answers as texts -/

theorem formula_unique {limits : Limits} {f : Formula Leaf} (h : r.formula = .ok e)
    (h' : { r with limits }.formula = .ok f) : f = e := by
  obtain ⟨n, hread⟩ := formula_eq_ok_iff.1 h
  obtain ⟨m, hread'⟩ := formula_eq_ok_iff.1 h'
  exact Formula.read_unique hread hread'

/-- The answer of `dnf` is read as a formula with the same clauses. -/
theorem formula_write_clauses (hd : r.dialect.WellFormed) (h : r.formula = .ok e)
    (hcalls : ∀ l, .literal l ∈ e.leaves → l.atom.call = none) :
    ∃ f, { r with expression := e.clauses.write r.dialect }.formula = .ok f ∧
      f.clauses.map (List.map Token.written) = e.clauses.map (List.map Token.written) := by
  obtain ⟨n, hread⟩ := formula_eq_ok_iff.1 h
  have hplain := Formula.plainIn_of_read hread hcalls
  obtain ⟨f, m, hagain, hwritten⟩ := hplain.read_write_clauses hd r.limits 1
  exact ⟨f, formula_eq_ok_iff.2 ⟨m, hagain⟩, hwritten⟩

/-- The answer of `minimize` is read as a formula with no more clauses and the same value. -/
theorem formula_write_minimize (hd : r.dialect.WellFormed) (h : r.formula = .ok e)
    (hcalls : ∀ l, .literal l ∈ e.leaves → l.atom.call = none) :
    ∃ f, { r with expression := e.minimize.write r.dialect }.formula = .ok f ∧
      f.clauses.length ≤ e.clauses.length ∧
      ∀ truths : List String, (f.value fun t => truths.contains t.display) =
        e.value fun t => truths.contains t.display := by
  obtain ⟨n, hread⟩ := formula_eq_ok_iff.1 h
  have hplain := Formula.plainIn_of_read hread hcalls
  obtain ⟨f, m, hagain, hwritten⟩ := Formula.read_write_minimize hd hread hplain 1
  refine ⟨f, formula_eq_ok_iff.2 ⟨m, hagain⟩, ?_, fun truths => ?_⟩
  · rw [Clauses.length_eq_of_written (Formula.written_clauses hwritten)]
    exact e.length_clauses_minimize_le
  · refine Formula.value_eq_of_written_minimize (fun t u h => ?_)
      (fun t => Formula.isTruth_eq_false_of_read hread Nat.one_pos)
      (fun t => Formula.isTruth_eq_false_of_read hagain Nat.one_pos) hwritten
    rw [Token.display_eq, Token.display_eq, h]

/-- A text keeps to all limits that the text of a request keeps to: under limits that let the one be
read the other is read too, and it has no more clauses. -/
def KeepsLimits (r : Request) (t : String) : Prop :=
  ∀ limits e, { r with limits }.formula = .ok e →
    ∃ f, { r with expression := t, limits }.formula = .ok f ∧
      f.clauses.length ≤ e.clauses.length

/-- **Answers can be fed back.** If a text without calls is accepted in a well-formed dialect, the
written answer of `dnf` has the same clauses as the text, and that of `minimize` is satisfied by the
same literals. Both are accepted within the limits of the text, whatever these are. -/
theorem output_reads_back (hd : r.dialect.WellFormed) (h : r.formula = .ok e)
    (hcalls : ∀ l, .literal l ∈ e.leaves → l.atom.call = none) :
    (∀ t, { r with command := .dnf true }.execute = .ok (.text t) →
      (∃ v, { r with command := .dnf false }.execute = .ok (.json v) ∧
        { r with command := .dnf false, expression := t }.execute = .ok (.json v)) ∧
      r.KeepsLimits t) ∧
    (∀ t, { r with command := .minimize }.execute = .ok (.text t) →
      (∀ truths o, { r with command := .eval truths }.execute = .ok o →
        ∃ b w w', o = .verdict b w ∧
          { r with command := .eval truths, expression := t }.execute = .ok (.verdict b w')) ∧
      r.KeepsLimits t) := by
  refine ⟨fun t ht => ?_, fun t ht => ?_⟩
  · obtain ⟨hle, ht⟩ := (execute_dnf_eq_ok_iff _ h).1 ht
    cases ht
    obtain ⟨f, hf, hwritten⟩ := formula_write_clauses hd h hcalls
    refine ⟨⟨_, (execute_dnf_eq_ok_iff _ h).2 ⟨hle, rfl⟩, ?_⟩, fun limits e' h' => ?_⟩
    · refine (execute_dnf_eq_ok_iff _ hf).2 ⟨?_, ?_⟩
      · exact (Clauses.length_eq_of_written hwritten).trans_le hle
      · exact congrArg Output.json (Clauses.toJson_eq_of_written hwritten).symm
    · obtain rfl := formula_unique h h'
      obtain ⟨f, hf, hwritten⟩ := formula_write_clauses (r := { r with limits }) hd h' hcalls
      exact ⟨f, hf, (Clauses.length_eq_of_written hwritten).le⟩
  · obtain ⟨hle, ht⟩ := (execute_minimize_eq_ok_iff h).1 ht
    cases ht
    obtain ⟨f, hf, hlength, hvalue⟩ := formula_write_minimize hd h hcalls
    refine ⟨fun truths o ho => ?_, fun limits e' h' => ?_⟩
    · obtain ⟨all, hall, -, rfl⟩ := (execute_eval_eq_ok_iff _ h).1 ho
      have hagain := (execute_eval_eq_ok_iff _ hf).2 ⟨all, hall, hlength.trans hle, rfl⟩
      rw [hvalue] at hagain
      exact ⟨_, _, _, rfl, hagain⟩
    · obtain rfl := formula_unique h h'
      obtain ⟨f, hf, hlength, -⟩ := formula_write_minimize (r := { r with limits }) hd h' hcalls
      exact ⟨f, hf, hlength⟩

/-- The groups of the text are as deep as the limit and its clauses as many, and the clauses share a
literal. -/
theorem output_reads_back_shared : ∃ r : Request,
    r = ⟨"(b||c)&&a", {}, .check, ⟨1, 2⟩, none⟩ ∧
    (∃ v, { r with command := .dnf false }.execute = .ok (.json v) ∧
      { r with command := .dnf false, expression := "b && a || c && a" }.execute =
        .ok (.json v)) ∧
    r.KeepsLimits "b && a || c && a" ∧
    (∃ w, { r with command := .eval ["a", "c"], expression := "a && (b || c)" }.execute =
      .ok (.verdict true w)) ∧
    r.KeepsLimits "a && (b || c)" := by
  have hread : formula ⟨"(b||c)&&a", {}, .check, ⟨1, 2⟩, none⟩ =
      .ok (.and (.or (.leaf (.literal ⟨1, [], "b", none⟩)) (.leaf (.literal ⟨2, [], "c", none⟩)))
        (.leaf (.literal ⟨3, [], "a", none⟩))) := by cbv
  obtain ⟨hclauses, hsame⟩ := output_reads_back (by decide) hread (by simp [Formula.leaves])
  have hdnf := (execute_dnf_eq_ok_iff (o := .text "b && a || c && a") true hread).2
    ⟨by decide, congrArg Output.text (by decide)⟩
  have hminimize := (execute_minimize_eq_ok_iff (o := .text "a && (b || c)") hread).2
    ⟨by decide, congrArg Output.text (by decide)⟩
  have heval := (execute_eval_eq_ok_iff ["a", "c"] hread).2 ⟨_, rfl, by decide, rfl⟩
  obtain ⟨hjson, hkeeps⟩ := hclauses _ hdnf
  obtain ⟨hverdict, hkeeps'⟩ := hsame _ hminimize
  obtain ⟨b, w, w', ho, hagain⟩ := hverdict _ _ heval
  cases ho
  exact ⟨_, rfl, hjson, hkeeps, ⟨w', hagain⟩, hkeeps'⟩

end Request

end PositiveLogic
