import PositiveLogic.Dialect.Basic

/-!
# The parameters of a call

After the opening character of a call its parameters run to the matching closing one. `CallBody`
is what is read there: the text as it stands, the pieces between the separators, and what
follows. Opening and closing characters nest; a separator counts only outside of all inner pairs;
an escaped character is none of them.

`CallBody.params` trims the pieces. A single blank piece is no parameter at all.
-/

namespace PositiveLogic

/-- What is read after the opening character of a call. -/
structure CallBody where
  /-- The text up to the closing character, as it stands. -/
  raw : List Char
  /-- The piece before the first separator. -/
  first : List Char
  /-- The pieces after the separators. -/
  others : List (List Char)
  /-- What follows the closing character. -/
  rest : List Char
  deriving DecidableEq

namespace CallBody

/-- A call body in front of which a character is read that belongs to a piece. -/
def keep (c : Char) (b : CallBody) : CallBody :=
  { b with raw := c :: b.raw, first := c :: b.first }

/-- A call body in front of which a character is read that was escaped. -/
def keepEscaped (c : Char) (b : CallBody) : CallBody :=
  { b with raw := escape :: c :: b.raw, first := c :: b.first }

/-- A call body in front of which a separator is read. -/
def cut (c : Char) (b : CallBody) : CallBody :=
  { b with raw := c :: b.raw, first := [], others := b.first :: b.others }

/-- Read a call body that stands inside of `depth` inner pairs; `none` if it is not closed. -/
def read (d : Dialect) (depth : Nat) : List Char → Option CallBody
  | [] => none
  | c :: cs =>
    if c = escape then
      match cs with
      | [] => none
      | e :: cs => (read d depth cs).map (keepEscaped e)
    else if c = d.opening then (read d (depth + 1) cs).map (keep c)
    else if c = d.closing then
      match depth with
      | 0 => some ⟨[c], [], [], cs⟩
      | depth + 1 => (read d depth cs).map (keep c)
    else if c = d.separator ∧ depth = 0 then (read d depth cs).map (cut c)
    else (read d depth cs).map (keep c)

/-- The parameters of a call. -/
def params (b : CallBody) : List String :=
  let pieces := (b.first :: b.others).map Text.trim
  if pieces = [[]] then [] else pieces.map String.ofList

theorem length_rest_lt {d : Dialect} {depth : Nat} {cs : List Char} {b : CallBody}
    (h : read d depth cs = some b) : b.rest.length < cs.length := by
  fun_induction read d depth cs generalizing b with
  | case1 => simp at h
  | case2 => simp at h
  | case3 depth e cs ih =>
    obtain ⟨b', hb', rfl⟩ := Option.map_eq_some_iff.1 h
    have := ih hb'
    simp only [keepEscaped, List.length_cons]
    omega
  | case4 depth cs _ ih =>
    obtain ⟨b', hb', rfl⟩ := Option.map_eq_some_iff.1 h
    have := ih hb'
    simp only [keep, List.length_cons]
    omega
  | case5 => cases h; simp
  | case6 cs _ _ depth ih =>
    obtain ⟨b', hb', rfl⟩ := Option.map_eq_some_iff.1 h
    have := ih hb'
    simp only [keep, List.length_cons]
    omega
  | case7 depth c cs _ _ _ _ ih =>
    obtain ⟨b', hb', rfl⟩ := Option.map_eq_some_iff.1 h
    have := ih hb'
    simp only [cut, List.length_cons]
    omega
  | case8 depth c cs _ _ _ _ ih =>
    obtain ⟨b', hb', rfl⟩ := Option.map_eq_some_iff.1 h
    have := ih hb'
    simp only [keep, List.length_cons]
    omega

end CallBody

end PositiveLogic
