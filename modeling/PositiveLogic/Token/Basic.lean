/-!
# Literals and tokens

A formula's literals are opaque. An `Atom` is what is written: modifiers, a text, and for a call such as
`has(item, 2)` its name and parameters. A `Literal` is an atom at one place: its number tells it apart
from every other place, even one with the same text. The number 0 belongs to the literal
`Literal.truth`, which holds without being asked.

A `Token` is a sign that a formula is written with: a literal, one of the two operators or an end of a
group. `Token.stampAll` numbers the literals of a list of tokens from a supply of fresh numbers, and
`Token.map_written_stampAll` says that nothing else is changed.

A `Leaf` of a formula is a token. Read formulas have literals as leaves; a formula made by hand may hold
any token as one.
-/

namespace PositiveLogic

/-! ## Literals -/

/-- The parts of a literal written as a call. -/
structure Call where
  name : String
  params : List String
  deriving DecidableEq

/-- What is written of a literal: its modifiers, in order, and its text without them. For a call
the text runs from the name to the closing character. -/
structure Atom where
  modifiers : List Char
  value : String
  call : Option Call := none
  deriving DecidableEq

namespace Atom

/-- The text of a literal with its modifiers in front. -/
def display (a : Atom) : String :=
  String.ofList (a.modifiers ++ a.value.toList)

end Atom

/-- A literal at one place. -/
structure Literal where
  id : Nat
  atom : Atom
  deriving DecidableEq

namespace Literal

/-- The literal that stands for truth. -/
def truth : Literal := ⟨0, [], "true", none⟩

end Literal

/-! ## Tokens -/

/-- A sign of a formula, over literals of one kind. -/
inductive Token (α : Type)
  | literal (a : α)
  | and
  | or
  | opening
  | closing
  deriving DecidableEq

namespace Token

variable {α β : Type}

/-- Change the literals. -/
def map (f : α → β) : Token α → Token β
  | literal a => literal (f a)
  | and => and
  | or => or
  | opening => opening
  | closing => closing

/-- Whether a token is one of the two operators. -/
def isOperator : Token α → Bool
  | and | or => true
  | _ => false

/-- Whether a token is a literal. -/
def isLiteral : Token α → Bool
  | literal _ => true
  | _ => false

/-- The literal of a token. -/
def literal? : Token α → Option α
  | literal a => some a
  | _ => none

/-- The text of a token in messages, given that of a literal. -/
def displayWith (f : α → String) : Token α → String
  | literal a => f a
  | and => "AND"
  | or => "OR"
  | opening => "("
  | closing => ")"

/-- Number a token's literal, and give the number after it. -/
def stamp (next : Nat) : Token Atom → Token Literal × Nat
  | literal a => (literal ⟨next, a⟩, next + 1)
  | and => (and, next)
  | or => (or, next)
  | opening => (opening, next)
  | closing => (closing, next)

/-- Number the literals of a list from left to right, and give the number after the last. -/
def stampAll (next : Nat) : List (Token Atom) → List (Token Literal) × Nat
  | [] => ([], next)
  | t :: ts =>
    let (t, next) := t.stamp next
    let (ts, next) := stampAll next ts
    (t :: ts, next)

end Token

/-- A leaf of a formula: a token, with its literal at one place. -/
abbrev Leaf := Token Literal

namespace Token

/-- The leaf that stands for truth. -/
def truth : Leaf := literal Literal.truth

/-- Whether a leaf is the one that stands for truth, told by its number. -/
def isTruth : Leaf → Bool
  | literal l => l.id == 0
  | _ => false

/-- The text of a leaf: modifiers and value of a literal, a fixed word for any other token. -/
def display (t : Leaf) : String :=
  t.displayWith (·.atom.display)

/-- What is written of a leaf, without the number of its place. -/
def written (t : Leaf) : Token Atom :=
  t.map Literal.atom

@[simp] theorem written_stamp (next : Nat) (t : Token Atom) : (t.stamp next).1.written = t := by
  cases t <;> rfl

/-- Numbering changes nothing of what is written. -/
theorem map_written_stampAll (next : Nat) (ts : List (Token Atom)) :
    (stampAll next ts).1.map written = ts := by
  induction ts generalizing next with
  | nil => rfl
  | cons t ts ih => simp [stampAll, ih]

end Token

end PositiveLogic
