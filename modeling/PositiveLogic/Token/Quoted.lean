import PositiveLogic.Dialect.Basic

/-!
# Quoted literals

Between quotes every character stands for itself, but the escape character, which takes the next
one literally. `Quoted.read` reads up to the closing quote, and `Quoted.write` puts a text
between quotes.
-/

namespace PositiveLogic

/-- What can be wrong with the form of a literal. -/
inductive Fault
  /-- The parameters of a call are not closed. -/
  | unterminatedContainer
  /-- A quoted literal is not closed. -/
  | unterminatedQuote
  /-- The text ends in an escape character that takes nothing. -/
  | danglingEscape
  deriving DecidableEq

namespace Quoted

/-- What is read behind an opening quote: the text, and what follows the closing quote. -/
abbrev Outcome := Except Fault (List Char × List Char)

/-- Put a character in front of the text that was read. -/
def keep (c : Char) : Outcome → Outcome
  | .ok (text, rest) => .ok (c :: text, rest)
  | .error f => .error f

/-- Read up to the closing quote. -/
def read (quote : Char) : List Char → Outcome
  | [] => .error .unterminatedQuote
  | c :: cs =>
    if c = escape then
      match cs with
      | [] => .error .danglingEscape
      | e :: cs => keep e (read quote cs)
    else if c = quote then .ok ([], cs)
    else keep c (read quote cs)

theorem keep_eq_ok_iff {c : Char} {r : Outcome} {text rest : List Char} :
    keep c r = .ok (text, rest) ↔ ∃ t, r = .ok (t, rest) ∧ text = c :: t := by
  cases r with
  | error f => simp [keep]
  | ok p =>
    obtain ⟨t, r⟩ := p
    simp only [keep, Except.ok.injEq, Prod.mk.injEq]
    constructor
    · rintro ⟨rfl, rfl⟩
      exact ⟨t, ⟨rfl, rfl⟩, rfl⟩
    · rintro ⟨_, ⟨rfl, rfl⟩, rfl⟩
      exact ⟨rfl, rfl⟩

/-- A character as it stands between quotes. -/
def writeChar (quote c : Char) : List Char :=
  if c = quote ∨ c = escape then [escape, c] else [c]

/-- A text between quotes. -/
def write (quote : Char) (cs : List Char) : List Char :=
  quote :: cs.flatMap (writeChar quote) ++ [quote]

theorem length_rest_lt {quote : Char} {cs text rest : List Char}
    (h : read quote cs = .ok (text, rest)) : rest.length < cs.length := by
  fun_induction read quote cs generalizing text with
  | case1 => simp at h
  | case2 => simp at h
  | case3 e cs ih =>
    obtain ⟨t, ht, -⟩ := keep_eq_ok_iff.1 h
    have := ih ht
    simp only [List.length_cons]
    omega
  | case4 cs => cases h; simp
  | case5 c cs _ _ ih =>
    obtain ⟨t, ht, -⟩ := keep_eq_ok_iff.1 h
    have := ih ht
    simp only [List.length_cons]
    omega

end Quoted

end PositiveLogic
