import PositiveLogic.Proofs.Parsing
import PositiveLogic.Reading

/-!
# The test of neighbours and the grammar

The quick test of neighbouring tokens refuses nothing that the parser accepts.

* `Token.PassesThrough`: the test goes through a list of tokens, from a token that an operand may
  follow to a token that ends an operand. It goes through every phrase
  (`Formula.Derives.passesThrough`).
* `Formula.readChecked_eq_ok_iff`: so reading with the test and reading without it accept the same
  texts and give the same formulas.
-/

namespace PositiveLogic

namespace Token

variable {α : Type}

/-- An operand may stand here: at the start, behind an operator or behind an opening character. -/
def LeadsOperand : Option (Token α) → Prop
  | none | some .and | some .or | some .opening => True
  | _ => False

/-- A token that ends an operand: a literal or a closing character. -/
def EndsOperand : Token α → Prop
  | literal _ | closing => True
  | _ => False

theorem checkNeighboursFrom_cons {before : Option (Token α)} {t : Token α}
    (h : clash? before t = none) (index : Nat) (ts : List (Token α)) :
    checkNeighboursFrom index before (t :: ts) = checkNeighboursFrom (index + 1) (some t) ts := by
  rw [checkNeighboursFrom, h]

theorem clash?_literal (before : Option (Token α)) (a : α) : clash? before (literal a) = none := by
  unfold clash?
  split <;> first | rfl | contradiction

theorem clash?_closing (before : Option (Token α)) : clash? before closing = none := by
  unfold clash?
  split <;> first | rfl | contradiction

theorem clash?_opening {before : Option (Token α)} (h : LeadsOperand before) :
    clash? before opening = none := by
  match before, h with
  | none, _ | some .and, _ | some .or, _ | some .opening, _ => rfl

theorem clash?_operator {last op : Token α} (h : EndsOperand last) (hop : op.isOperator) :
    clash? (some last) op = none := by
  match last, op, h, hop with
  | literal _, .and, _, _ | literal _, .or, _, _ => rfl
  | closing, .and, _, _ | closing, .or, _, _ => rfl

/-- The test goes through the tokens `ts` where an operand may stand: behind them, at the end of an
operand, the rest is tested. -/
def PassesThrough (ts : List (Token α)) : Prop :=
  ∀ before index us, LeadsOperand before →
    ∃ last, EndsOperand last ∧
      checkNeighboursFrom index before (ts ++ us) =
        checkNeighboursFrom (index + ts.length) (some last) us

theorem passesThrough_literal (a : α) : PassesThrough [literal a] := fun before index us _ =>
  ⟨literal a, trivial, checkNeighboursFrom_cons (clash?_literal before a) index us⟩

variable {ts us : List (Token α)}

theorem PassesThrough.group (h : PassesThrough ts) :
    PassesThrough (.opening :: ts ++ [.closing]) := by
  intro before index vs hbefore
  obtain ⟨last, -, hcheck⟩ := h (some .opening) (index + 1) (.closing :: vs) trivial
  refine ⟨.closing, trivial, ?_⟩
  rw [List.cons_append, List.cons_append, List.append_assoc,
    checkNeighboursFrom_cons (clash?_opening hbefore)]
  refine hcheck.trans ?_
  rw [checkNeighboursFrom_cons (clash?_closing _)]
  congr 1
  simp only [List.length_cons, List.length_append, List.length_nil]
  omega

theorem PassesThrough.join (hl : PassesThrough ts) (hr : PassesThrough us) {op : Token α}
    (hop : op.isOperator) : PassesThrough (ts ++ op :: us) := by
  intro before index vs hbefore
  have hleads : LeadsOperand (some op) := by
    cases op with
    | and | or => trivial
    | _ => cases hop
  obtain ⟨last, hlast, hleft⟩ := hl before index (op :: us ++ vs) hbefore
  obtain ⟨last', hlast', hright⟩ := hr (some op) (index + ts.length + 1) vs hleads
  refine ⟨last', hlast', ?_⟩
  rw [List.append_assoc, hleft, List.cons_append,
    checkNeighboursFrom_cons (clash?_operator hlast hop), hright]
  congr 1
  simp only [List.length_cons, List.length_append]
  omega

end Token

namespace Formula

variable {α : Type} {p : Phrase} {ts : List (Token α)} {e : Formula (Token α)}

/-- **The test goes through a phrase.** -/
theorem Derives.passesThrough (h : Derives p ts e) : Token.PassesThrough ts := by
  induction h with
  | literal a => exact Token.passesThrough_literal a
  | group _ ih => exact ih.group
  | factor _ ih => exact ih
  | and _ _ ihl ihr => exact ihl.join ihr rfl
  | term _ ih => exact ih
  | or _ _ ihl ihr => exact ihl.join ihr rfl

theorem Derives.checkNeighbours_eq_ok (h : Derives p ts e) : Token.checkNeighbours ts = .ok () := by
  obtain ⟨last, -, hcheck⟩ := h.passesThrough none 0 [] trivial
  rw [List.append_nil] at hcheck
  exact hcheck

/-- **The test refuses nothing that is read without it.** -/
theorem readChecked_eq_ok_iff {d : Dialect} {limits : Limits} {next : Nat} {s : String}
    {r : Formula Leaf × Nat} :
    readChecked d limits next s = .ok r ↔ read d limits next s = .ok r := by
  unfold readChecked read
  cases Token.read d next s with
  | error fault => rfl
  | ok numbered =>
    obtain ⟨ts, n⟩ := numbered
    change ((Token.checkNeighbours ts).mapError Error.adjacency >>= fun _ =>
        readTokens limits ts >>= fun e => pure (e, n)) = .ok r ↔
      (readTokens limits ts >>= fun e => pure (e, n)) = .ok r
    cases hparse : ofTokens limits.maxDepth ts with
    | error fault =>
      have hrefused : readTokens limits ts = .error (.parse fault) := by
        rw [readTokens, hparse]
        rfl
      rw [hrefused]
      -- the test may refuse the text first, with an error of its own
      cases Token.checkNeighbours ts with
      | error clash => exact iff_of_false nofun nofun
      | ok _ => exact Iff.rfl
    | ok e =>
      rw [(derives_of_ofTokens hparse).1.checkNeighbours_eq_ok]
      rfl

end Formula

end PositiveLogic
