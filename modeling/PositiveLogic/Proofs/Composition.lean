import PositiveLogic.Proofs.Faults

/-!
# Texts one behind the other

A text that is read without an error is read so in front of an operator between spaces, and what
stands behind the operator is read as if it began there. Where blanks part literals, a single blank
is enough.

* `Token.position_le_of_scan`: the character an error points at is one of the text, so counting it
  from the start and counting it from the end are each other's inverse.
* `Token.ofText_append`: what is known of the characters of two texts, for the texts themselves.
* `Token.ofText_join`: the tokens of two texts with an operator or a blank in between are those of
  the one text, the operator, and those of the other text. An error in the second text stays the
  same error, at a place that is moved on by what stands in front.
-/

namespace PositiveLogic

namespace Token

variable {d : Dialect} {b : Buffer} {cs : List Char} {out ts : List (Token Atom)} {e : ScanError}

/-! ## The place of an error -/

theorem position_le_of_scan (h : scan d b cs = .error e) : e.position ≤ cs.length := by
  obtain ⟨front, back, rfl, hposition, -⟩ := pointsInto_of_scan h
  rw [hposition, List.length_append]
  exact Nat.le_add_left (back.length + 1) front.length

/-! ## Texts as strings -/

theorem ofText_eq_ok_iff {s : String} :
    ofText d s = .ok ts ↔ scan d .empty s.toList = .ok ts := by
  rw [ofText]
  cases scan d .empty s.toList <;> simp

theorem ofText_eq_error_iff {s : String} : ofText d s = .error e ↔
    ∃ e', scan d .empty s.toList = .error e' ∧
      e = { e' with position := s.length - e'.position } := by
  rw [ofText]
  cases scan d .empty s.toList <;> simp [eq_comm]

/-- What is read of a text behind another one that gave the tokens `ts`: these come first, and
places are moved on by the length of the text in front. -/
def behind (front : String) (ts : List (Token Atom)) :
    Except ScanError (List (Token Atom)) → Except ScanError (List (Token Atom))
  | .ok us => .ok (ts ++ us)
  | .error e => .error { e with position := front.length + e.position }

/-- **A text in front moves the places on**, if the rest of the characters is read as by itself. -/
theorem ofText_append {front s : String}
    (h : scan d .empty (front.toList ++ s.toList) = thenScan ts (scan d .empty s.toList)) :
    ofText d (front ++ s) = behind front ts (ofText d s) := by
  rw [ofText, String.toList_append, h, ofText]
  cases hscan : scan d .empty s.toList with
  | ok us => rfl
  | error e =>
    have hle : e.position ≤ s.length := by
      rw [← String.length_toList]
      exact position_le_of_scan hscan
    have hplace : (front ++ s).length - e.position = front.length + (s.length - e.position) := by
      rw [String.length_append, Nat.add_sub_assoc hle]
    simp only [thenScan, behind, hplace]

/-! ## Joined texts -/

/-- A blank between literals ends the one in front of it, where blanks part literals. -/
theorem Follows.blank (hd : d.Separable) (hs : d.splitOnBlank = true) {w : Char}
    (hw : Text.isBlank w = true) (cs : List Char) : Follows d (w :: cs) (scan d .empty cs) := by
  refine ⟨hd.stops_of_blank hw cs, fun b => ?_⟩
  rw [scan_blank hw, if_pos hs]

/-- A text in front of an operator between spaces. -/
theorem ofText_append_operator (hd : d.Separable) {op : Token Atom} (hop : op.isOperator)
    {front spelled : String} (hspell : spelled.toList = d.spelling op)
    (h : ofText d front = .ok ts) (s : String) :
    ofText d (front ++ " " ++ spelled ++ " " ++ s) =
      behind (front ++ " " ++ spelled ++ " ") (ts ++ [op]) (ofText d s) := by
  refine ofText_append ?_
  have hspace : Text.isBlank ' ' = true := rfl
  have hcs : (front ++ " " ++ spelled ++ " ").toList ++ s.toList =
      front.toList ++ (' ' :: d.spelling op ++ ' ' :: s.toList) := by
    simp [String.toList_append, hspell]
  rw [hcs, scan_append (Follows.operator hd hop hspace hspace s.toList) (ofText_eq_ok_iff.1 h),
    thenScan_thenScan]

/-- **Scanning is compositional at operators.** Behind a text that is read without an error, an
operator between spaces gives its token, and what follows is read as by itself. Where blanks part
literals, the same holds of a single blank, which gives no token. -/
theorem ofText_join (hd : d.Separable) {front : String} (h : ofText d front = .ok ts)
    (s : String) :
    ofText d (front ++ " " ++ d.andOp ++ " " ++ s) =
      behind (front ++ " " ++ d.andOp ++ " ") (ts ++ [.and]) (ofText d s) ∧
    ofText d (front ++ " " ++ d.orOp ++ " " ++ s) =
      behind (front ++ " " ++ d.orOp ++ " ") (ts ++ [.or]) (ofText d s) ∧
    (d.splitOnBlank = true → ∀ w, Text.isBlank w = true →
      ofText d (front ++ String.singleton w ++ s) =
        behind (front ++ String.singleton w) ts (ofText d s)) := by
  refine ⟨ofText_append_operator hd rfl rfl h s, ofText_append_operator hd rfl rfl h s,
    fun hs w hw => ofText_append ?_⟩
  have hcs : (front ++ String.singleton w).toList ++ s.toList =
      front.toList ++ w :: s.toList := by
    simp
  rw [hcs, scan_append (Follows.blank hd hs hw s.toList) (ofText_eq_ok_iff.1 h)]

/-- One operator starts like the other one, and the text in front is an escaped one. An error
behind the operator is found where it is. -/
theorem ofText_join_prefix : ∃ d : Dialect, ∃ ts, d = { andOp := "&", orOp := "&&" } ∧
    ofText d "\\&" = .ok ts ∧
    ofText d "\\& && 'y'" = .ok (ts ++ [.or, .literal ⟨[], "y", none⟩]) ∧
    ofText d "\\& & 'z" = .error ⟨.unterminatedQuote, 5⟩ ∧
    ofText d "\\&\ty" = .ok (ts ++ [.literal ⟨[], "y", none⟩]) := by
  have hfront : ofText { andOp := "&", orOp := "&&" } "\\&" = .ok [.literal ⟨[], "&", none⟩] := by cbv
  have hquoted : ofText { andOp := "&", orOp := "&&" } "'y'" = .ok [.literal ⟨[], "y", none⟩] := by
    cbv
  have herror : ofText { andOp := "&", orOp := "&&" } "'z" = .error ⟨.unterminatedQuote, 0⟩ := by
    cbv
  have hplain : ofText { andOp := "&", orOp := "&&" } "y" = .ok [.literal ⟨[], "y", none⟩] := by cbv
  have hd : Dialect.Separable { andOp := "&", orOp := "&&" } := by decide
  have hor := (ofText_join hd hfront "'y'").2.1
  have hand := (ofText_join hd hfront "'z").1
  have htab := (ofText_join hd hfront "y").2.2 rfl '\t' rfl
  rw [hquoted] at hor
  rw [herror] at hand
  rw [hplain] at htab
  exact ⟨_, _, rfl, hfront, hor, hand, htab⟩

end Token

end PositiveLogic
