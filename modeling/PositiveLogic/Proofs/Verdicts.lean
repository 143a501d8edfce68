import Mathlib.Data.List.Find
import PositiveLogic.Proofs.Feedback

/-!
# Verdicts

The command `eval` says whether a text holds, given the texts of the literals that do. It never
brings the formula into disjunctive normal form and compares literals by their texts, but its answer
is the value of the formula, and its witness is a row of the answer of `dnf`.

* `Command.allTruths_eq_ok_iff`: which literals hold.
* `Command.texts_witness?`: the witness is found among rows of texts. No literal of a text stands
  for truth, so each of them has to be among those that hold.
* `Request.eval_agrees_with_dnf`: the two commands agree, and where `dnf` answers and something is
  given to evaluate with, `eval` answers too.
-/

namespace PositiveLogic

namespace Command

/-- The texts that an input names; without an input there are none. -/
def inputTruths? : Option String → Option (List String)
  | none => some []
  | some s => truthsOfText? s

/-- The first row of texts all of which are among those that hold. -/
def firstRow? (truths : List String) (rows : List (List String)) : Option (List String) :=
  rows.find? fun row => row.all fun text => truths.contains text

/-- **The literals that hold** are those of the command and those of the input, and one of the two
has to be given. -/
theorem allTruths_eq_ok_iff {truths all : List String} {input : Option String} :
    allTruths truths input = .ok all ↔
      ∃ more, inputTruths? input = some more ∧ (truths ≠ [] ∨ input ≠ none) ∧
        all = truths ++ more := by
  cases input with
  | none => cases truths <;> simp [allTruths, inputTruths?, eq_comm]
  | some s => cases h : truthsOfText? s <;> simp [allTruths, inputTruths?, h, eq_comm]

/-- **The witness is the first row whose texts all hold**, where no leaf stands for truth. -/
theorem texts_witness? {truths : List String} {cs : Clauses Leaf}
    (h : ∀ t ∈ cs.flatten, t.isTruth = false) :
    (witness? truths cs).map Clause.texts = firstRow? truths (cs.map Clause.texts) := by
  have hwitness : witness? truths cs =
      cs.find? fun c => c.all (Token.value fun t => truths.contains t.display) :=
    Clauses.run_witness? _ cs
  rw [hwitness, firstRow?, List.find?_map]
  -- both sides look for the same clause
  refine congrArg (Option.map Clause.texts) (List.find?_congr fun c hc => ?_)
  rw [Function.comp_apply, Clause.texts, List.all_map, Bool.eq_iff_iff, List.all_eq_true,
    List.all_eq_true]
  refine forall₂_congr fun t ht => ?_
  rw [Token.value, h t (List.mem_flatten_of_mem hc ht), Bool.false_or, Function.comp_apply]

end Command

namespace Request

variable {r : Request} {e : Formula Leaf}

theorem isTruth_eq_false_of_formula (h : r.formula = .ok e) {t : Leaf}
    (ht : t ∈ e.clauses.flatten) : t.isTruth = false := by
  obtain ⟨n, hread⟩ := formula_eq_ok_iff.1 h
  exact Formula.isTruth_eq_false_of_read hread Nat.one_pos (Formula.mem_flatten_clauses.1 ht)

/-- The rows of the answer of `dnf`. -/
theorem execute_dnf_rows (h : r.formula = .ok e) (hle : e.clauses.length ≤ r.limits.maxClauses) :
    { r with command := .dnf false }.execute =
      .ok (.json (.array ((e.clauses.map Clause.texts).map .texts))) := by
  refine (execute_dnf_eq_ok_iff false h).2 ⟨hle, ?_⟩
  rw [List.map_map]
  rfl

/-- **`eval` tells the truth and agrees with `dnf`.** Where it answers, it says whether the formula of
the text is satisfied by the literals whose texts are given, `dnf` answers too, and the witness is
the first row of its answer all of whose texts are given. It is missing exactly if the formula is
not satisfied. Where `dnf` answers and some texts are given, `eval` answers. -/
theorem eval_agrees_with_dnf (r : Request) (truths : List String) :
    (∀ o, { r with command := .eval truths }.execute = .ok o →
      ∃ (e : Formula Leaf) (more : List String) (rows : List (List String)),
        r.formula = .ok e ∧ Command.inputTruths? r.input = some more ∧
        { r with command := .dnf false }.execute = .ok (.json (.array (rows.map .texts))) ∧
        o = .verdict (e.satisfied fun t => (truths ++ more).contains t.display)
          (((Command.firstRow? (truths ++ more) rows).map .texts).getD .null) ∧
        (e.satisfied fun t => (truths ++ more).contains t.display) =
          (Command.firstRow? (truths ++ more) rows).isSome) ∧
    ∀ o, { r with command := .dnf false }.execute = .ok o →
      (Command.inputTruths? r.input).isSome → (truths ≠ [] ∨ r.input ≠ none) →
        ∃ o', { r with command := .eval truths }.execute = .ok o' := by
  refine ⟨fun o ho => ?_, fun o ho hinput hgiven => ?_⟩
  · obtain ⟨e, he, -⟩ := bind_eq_ok_iff.1 ho
    obtain ⟨all, hall, hle, rfl⟩ := (execute_eval_eq_ok_iff truths he).1 ho
    obtain ⟨more, hmore, -, rfl⟩ := Command.allTruths_eq_ok_iff.1 hall
    have hrow : (Command.witness? (truths ++ more) e.clauses).map Clause.texts =
        Command.firstRow? (truths ++ more) (e.clauses.map Clause.texts) :=
      Command.texts_witness? fun t => isTruth_eq_false_of_formula he
    refine ⟨e, more, e.clauses.map Clause.texts, he, hmore, execute_dnf_rows he hle, ?_, ?_⟩
    · rw [← hrow, Option.map_map, Formula.satisfied_eq]
      rfl
    · rw [← hrow, Option.isSome_map, Command.isSome_witness?, Formula.value_clauses,
        Formula.satisfied_eq]
  · obtain ⟨e, he, -⟩ := bind_eq_ok_iff.1 ho
    obtain ⟨hle, -⟩ := (execute_dnf_eq_ok_iff false he).1 ho
    obtain ⟨more, hmore⟩ := Option.isSome_iff_exists.1 hinput
    have hall := Command.allTruths_eq_ok_iff.2 ⟨more, hmore, hgiven, rfl⟩
    exact ⟨_, (execute_eval_eq_ok_iff truths he).2 ⟨_, hall, hle, rfl⟩⟩

/-- Two rows hold: the command names the literal that they share, and the input the other two. -/
theorem eval_agrees_with_dnf_input : ∃ (r : Request) (rows : List (List String)),
    r = ⟨"a&&(b||c||d)", {}, .check, ⟨1, 3⟩, some "[\"d\", \"c\"]"⟩ ∧
    Command.inputTruths? r.input = some ["d", "c"] ∧
    { r with command := .dnf false }.execute = .ok (.json (.array (rows.map .texts))) ∧
    { r with command := .eval ["a"] }.execute = .ok (.verdict true
      (((Command.firstRow? ["a", "d", "c"] rows).map .texts).getD .null)) ∧
    (Command.firstRow? ["a", "d", "c"] rows).isSome := by
  let r : Request := ⟨"a&&(b||c||d)", {}, .check, ⟨1, 3⟩, some "[\"d\", \"c\"]"⟩
  have hread : r.formula = .ok (.and (.leaf (.literal ⟨1, [], "a", none⟩))
      (.or (.or (.leaf (.literal ⟨2, [], "b", none⟩)) (.leaf (.literal ⟨3, [], "c", none⟩)))
        (.leaf (.literal ⟨4, [], "d", none⟩)))) := by cbv
  have hinput : Command.inputTruths? r.input = some ["d", "c"] := by decide +kernel
  have hdnf := execute_dnf_rows hread (by decide)
  obtain ⟨hverdict, hanswers⟩ := eval_agrees_with_dnf r ["a"]
  obtain ⟨o, heval⟩ := hanswers _ hdnf (by rw [hinput]; rfl) (.inl (List.cons_ne_nil _ _))
  obtain ⟨e, more, rows, he, hmore, hrows, rfl, hsatisfied⟩ := hverdict o heval
  cases hread.symm.trans he
  cases hinput.symm.trans hmore
  exact ⟨r, rows, rfl, hinput, hrows, heval, hsatisfied.symm.trans (by decide)⟩

end Request

end PositiveLogic
