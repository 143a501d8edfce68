import PositiveLogic.Proofs.Scanning

/-!
# Where an error is

An error of the scanner is about a sign of the text: the opening character of a call whose parameters
are not closed, the opening quote of a literal that is not closed, or an escape character at the end
of the text.

* `ScanError.PointsInto`: the sign stands where the error is.
* `Token.pointsInto_of_scan`: every error of the scanner is such an error. So a text without a sign
  has no error that is about it.
-/

namespace PositiveLogic

/-- The sign that a fault is about. -/
def Fault.sign (d : Dialect) : Fault → Char
  | unterminatedContainer => d.opening
  | unterminatedQuote => d.quote
  | danglingEscape => escape

/-- An error is at the sign that its fault is about, counted from the end of the text. An escape
character that takes nothing is the last character. -/
def ScanError.PointsInto (d : Dialect) (cs : List Char) (e : ScanError) : Prop :=
  ∃ front back, cs = front ++ e.fault.sign d :: back ∧ e.position = back.length + 1 ∧
    (e.fault = .danglingEscape → back = [])

namespace ScanError.PointsInto

variable {d : Dialect} {cs rest : List Char} {e : ScanError}

/-- Text in front of an error does not move it, counted from the end. -/
theorem of_suffix (h : PointsInto d rest e) (hsuffix : rest <:+ cs) : PointsInto d cs e := by
  obtain ⟨front, back, rfl, hposition, hback⟩ := h
  obtain ⟨pre, rfl⟩ := hsuffix
  exact ⟨pre ++ front, back, (List.append_assoc _ _ _).symm, hposition, hback⟩

theorem sign_mem (h : PointsInto d cs e) : e.fault.sign d ∈ cs := by
  obtain ⟨front, back, rfl, -, -⟩ := h
  exact List.mem_append_right _ List.mem_cons_self

end ScanError.PointsInto

namespace Quoted

variable {quote : Char} {cs : List Char} {fault : Fault}

theorem keep_eq_error_iff {c : Char} {r : Outcome} : keep c r = .error fault ↔ r = .error fault := by
  cases r <;> simp [keep]

/-- A quoted literal is not closed, or an escape character at the end takes nothing. -/
theorem fault_of_read (h : read quote cs = .error fault) :
    fault = .unterminatedQuote ∨ fault = .danglingEscape ∧ [escape] <:+ cs := by
  fun_induction read quote cs with
  | case1 =>
    cases h
    exact .inl rfl
  | case2 =>
    cases h
    exact .inr ⟨rfl, List.suffix_refl _⟩
  | case3 e cs ih =>
    exact (ih (keep_eq_error_iff.1 h)).imp_right
      (And.imp_right fun hsuffix => hsuffix.trans (List.suffix_append [escape, e] cs))
  | case4 => cases h
  | case5 c cs _ _ ih =>
    exact (ih (keep_eq_error_iff.1 h)).imp_right
      (And.imp_right fun hsuffix => hsuffix.trans (List.suffix_cons c cs))

end Quoted

namespace Token

variable {d : Dialect} {b : Buffer} {cs : List Char} {e : ScanError}

/-- **An error is at the sign that it is about.** -/
theorem pointsInto_of_scan (h : scan d b cs = .error e) : e.PointsInto d cs := by
  -- an error in the rest of a text is one of the text
  have in_rest : ∀ {out : List (Token Atom)} {b : Buffer} {cs rest : List Char},
      thenScan out (scan d b rest) = .error e → rest <:+ cs →
      (scan d b rest = .error e → e.PointsInto d rest) → e.PointsInto d cs := by
    intro out b cs rest h hsuffix ih
    exact (ih (thenScan_eq_error_iff.1 h)).of_suffix hsuffix
  fun_induction scan d b cs with
  | case1 => cases h
  | case2 b c cs hc hs ih => exact in_rest h (List.suffix_cons c cs) ih
  | case3 b c cs hc hs ih => exact (ih h).of_suffix (List.suffix_cons c cs)
  | case4 =>
    cases h
    exact ⟨[], [], rfl, rfl, fun _ => rfl⟩
  | case5 b x cs _ ih => exact (ih h).of_suffix (List.suffix_append [escape, x] cs)
  | case6 b c cs _ _ _ text rest hread ih =>
    exact in_rest h ((Quoted.rest_suffix hread).trans (List.suffix_cons c cs)) ih
  | case7 b c cs _ _ _ hread =>
    cases h
    obtain hfault | ⟨-, front, rfl⟩ := Quoted.fault_of_read hread
    · cases hfault
    · exact ⟨c :: front, [], rfl, rfl, fun _ => rfl⟩
  | case8 b c cs _ _ hquote fault hfault hread =>
    cases h
    obtain rfl | ⟨rfl, -⟩ := Quoted.fault_of_read hread
    · exact ⟨[], cs, congrArg (· :: cs) hquote.1, rfl, fun h => by cases h⟩
    · exact absurd rfl hfault
  | case9 b c cs _ _ _ op rest hop ih => exact in_rest h (Dialect.suffix_of_operatorAt? hop) ih
  | case10 b cs _ _ _ _ _ ih => exact in_rest h (List.suffix_cons _ cs) ih
  | case11 b cs _ body hread _ _ _ _ ih =>
    exact in_rest h ((CallBody.rest_suffix hread).trans (List.suffix_cons _ cs)) ih
  | case12 b cs =>
    cases h
    exact ⟨[], cs, rfl, rfl, fun h => by cases h⟩
  | case13 b cs _ _ _ _ _ ih => exact in_rest h (List.suffix_cons _ cs) ih
  | case14 b c cs _ _ _ _ _ _ ih => exact (ih h).of_suffix (List.suffix_cons c cs)

end Token

end PositiveLogic
