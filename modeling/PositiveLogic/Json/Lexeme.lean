import PositiveLogic.Json.Basic

/-!
# The lexemes of JSON

A text is cut into brackets, braces, colons, commas, strings and words; a word is a number or one
of `true`, `false` and `null`. Blanks between lexemes are dropped.
-/

namespace PositiveLogic.Json

/-- A lexeme of JSON. -/
inductive Lexeme
  | beginArray
  | endArray
  | beginObject
  | endObject
  | colon
  | comma
  | string (content : Option String)
  | word (v : Json)

/-! ## Strings -/

/-- The value of a hexadecimal digit. -/
def hexValue? (c : Char) : Option Nat :=
  if '0' ≤ c ∧ c ≤ '9' then some (c.toNat - '0'.toNat)
  else if 'a' ≤ c ∧ c ≤ 'f' then some (c.toNat - 'a'.toNat + 10)
  else if 'A' ≤ c ∧ c ≤ 'F' then some (c.toNat - 'A'.toNat + 10)
  else none

/-- The number of four hexadecimal digits. -/
def hexUnit? (a b c d : Char) : Option Nat := do
  let a ← hexValue? a
  let b ← hexValue? b
  let c ← hexValue? c
  let d ← hexValue? d
  return ((a * 16 + b) * 16 + c) * 16 + d

/-- The character of a short escape. -/
def shortEscape? : Char → Option Char
  | '"' => some '"'
  | '\\' => some '\\'
  | '/' => some '/'
  | 'b' => some '\x08'
  | 'f' => some '\x0c'
  | 'n' => some '\n'
  | 'r' => some '\r'
  | 't' => some '\t'
  | _ => none

/-- Put a unit in front of a string that was read. -/
def keepUnit (unit : Nat) (r : Option (List Nat × List Char)) : Option (List Nat × List Char) :=
  r.map fun (units, rest) => (unit :: units, rest)

/-- Read a string up to its closing quote: its units, and what follows the quote. A unit is a code
point or half of a surrogate pair. -/
def readUnits : List Char → Option (List Nat × List Char)
  | [] => none
  | '"' :: cs => some ([], cs)
  | '\\' :: 'u' :: a :: b :: c :: d :: cs =>
    match hexUnit? a b c d with
    | some unit => keepUnit unit (readUnits cs)
    | none => none
  | '\\' :: e :: cs =>
    match shortEscape? e with
    | some c => keepUnit c.toNat (readUnits cs)
    | none => none
  | c :: cs => if c.toNat < 0x20 then none else keepUnit c.toNat (readUnits cs)

theorem exists_of_keepUnit {unit : Nat} {r : Option (List Nat × List Char)} {units : List Nat}
    {rest : List Char} (h : keepUnit unit r = some (units, rest)) :
    ∃ us, r = some (us, rest) := by
  obtain ⟨⟨us, rest'⟩, hr, he⟩ := Option.map_eq_some_iff.1 h
  obtain ⟨-, rfl⟩ := Prod.mk.injEq _ _ _ _ ▸ he
  exact ⟨us, hr⟩

theorem length_rest_lt {cs rest : List Char} {units : List Nat}
    (h : readUnits cs = some (units, rest)) : rest.length < cs.length := by
  fun_induction readUnits cs generalizing units with
  | case1 => simp at h
  | case2 => cases h; simp
  | case3 a b c d cs unit _ ih =>
    obtain ⟨us, hr⟩ := exists_of_keepUnit h
    have := ih hr
    simp only [List.length_cons]
    omega
  | case4 => simp at h
  | case5 e cs _ c _ ih =>
    obtain ⟨us, hr⟩ := exists_of_keepUnit h
    have := ih hr
    simp only [List.length_cons]
    omega
  | case6 => simp at h
  | case7 => simp at h
  | case8 c cs _ _ _ _ ih =>
    obtain ⟨us, hr⟩ := exists_of_keepUnit h
    have := ih hr
    simp only [List.length_cons]
    omega

/-- The characters of units; `none` if half of a surrogate pair stands alone. -/
def joinUnits : List Nat → Option (List Char)
  | [] => some []
  | u :: us =>
    if 0xD800 ≤ u ∧ u < 0xDC00 then
      match us with
      | [] => none
      | v :: us =>
        if 0xDC00 ≤ v ∧ v < 0xE000 then
          (joinUnits us).map (Char.ofNat (0x10000 + (u - 0xD800) * 0x400 + (v - 0xDC00)) :: ·)
        else none
    else if 0xDC00 ≤ u ∧ u < 0xE000 then none
    else (joinUnits us).map (Char.ofNat u :: ·)

/-! ## Words -/

/-- Whether a character can stand in a word. -/
def isWordChar (c : Char) : Bool :=
  c.isAlphanum || c == '+' || c == '-' || c == '.'

/-- Whether a text is the exponent of a number, or nothing. -/
def isExponent : List Char → Bool
  | [] => true
  | c :: cs =>
    let digits := match cs with
      | '+' :: cs | '-' :: cs => cs
      | cs => cs
    (c == 'e' || c == 'E') && !digits.isEmpty && digits.all Char.isDigit

/-- Whether a text is what may follow the whole part of a number. -/
def isFraction : List Char → Bool
  | '.' :: c :: cs => c.isDigit && isExponent (cs.dropWhile Char.isDigit)
  | cs => isExponent cs

/-- Whether a text is a number without sign. -/
def isUnsigned : List Char → Bool
  | '0' :: cs => isFraction cs
  | c :: cs => c.isDigit && isFraction (cs.dropWhile Char.isDigit)
  | [] => false

/-- Whether a text is a number. -/
def isNumber : List Char → Bool
  | '-' :: cs => isUnsigned cs
  | cs => isUnsigned cs

/-- The value of a word. -/
def ofWord? (cs : List Char) : Option Json :=
  match String.ofList cs with
  | "null" => some null
  | "true" => some (bool true)
  | "false" => some (bool false)
  | s => if isNumber cs then some (number s) else none

/-! ## Cutting -/

/-- Whether a character may stand between lexemes. -/
def isSpace (c : Char) : Bool :=
  c == ' ' || c == '\n' || c == '\t' || c == '\r'

/-- The lexeme of a character that is one. -/
def Lexeme.ofMark? : Char → Option Lexeme
  | '[' => some .beginArray
  | ']' => some .endArray
  | '{' => some .beginObject
  | '}' => some .endObject
  | ':' => some .colon
  | ',' => some .comma
  | _ => none

/-- The lexemes of a text. -/
def Lexeme.ofText? : List Char → Option (List Lexeme)
  | [] => some []
  | c :: cs =>
    if isSpace c then ofText? cs
    else
      match ofMark? c with
      | some mark => (ofText? cs).map (mark :: ·)
      | none =>
        if c = '"' then
          match _h : readUnits cs with
          | some (units, rest) =>
            (ofText? rest).map (.string ((joinUnits units).map String.ofList) :: ·)
          | none => none
        else
          match ofWord? ((c :: cs).takeWhile isWordChar) with
          | some v => (ofText? (cs.dropWhile isWordChar)).map (.word v :: ·)
          | none => none
termination_by cs => cs.length
decreasing_by
  · exact Nat.lt_succ_self _
  · exact Nat.lt_succ_self _
  · exact Nat.lt_succ_of_lt (length_rest_lt _h)
  · exact Nat.lt_succ_of_le (List.dropWhile_sublist isWordChar).length_le

end PositiveLogic.Json
