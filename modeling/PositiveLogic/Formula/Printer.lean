import PositiveLogic.Dialect.Basic
import PositiveLogic.Formula.Basic
import PositiveLogic.Token.Spelling

/-!
# From formulas to text

`Formula.toTokens` writes a formula as tokens over its leaves, with a group only where reading
would build another tree without it: around a disjunction below a conjunction, and around a right
operand of the same operator. `Formula.write` spells these tokens in a dialect, with a space on
each side of an operator.
-/

namespace PositiveLogic

namespace Formula

variable {α : Type}

/-- What a subformula is an operand of. -/
inductive Place
  /-- Of nothing, or of an operator that binds less. -/
  | top
  /-- The left one of a disjunction. -/
  | orLeft
  /-- The right one of a disjunction. -/
  | orRight
  /-- The left one of a conjunction. -/
  | andLeft
  /-- The right one of a conjunction. -/
  | andRight
  deriving DecidableEq

namespace Place

/-- Whether a conjunction needs a group here. -/
def groupsAnd : Place → Bool
  | andRight => true
  | _ => false

/-- Whether a disjunction needs a group here. -/
def groupsOr : Place → Bool
  | orRight | andLeft | andRight => true
  | _ => false

end Place

/-- Tokens in a group, if one is needed. -/
def group (needed : Bool) (ts : List (Token α)) : List (Token α) :=
  if needed then .opening :: ts ++ [.closing] else ts

/-- The tokens of a subformula at its place. -/
def toTokensAt (place : Place) : Formula α → List (Token α)
  | leaf a => [.literal a]
  | and l r =>
    group place.groupsAnd (l.toTokensAt .andLeft ++ .and :: r.toTokensAt .andRight)
  | or l r =>
    group place.groupsOr (l.toTokensAt .orLeft ++ .or :: r.toTokensAt .orRight)

/-- The tokens of a formula over its leaves. -/
def toTokens (e : Formula α) : List (Token α) :=
  e.toTokensAt .top

end Formula

namespace Dialect

/-- A token of a written formula whose leaves are tokens: an operator of the formula has a space on
each side, and a leaf stands as it is spelled. -/
def spellSpaced (d : Dialect) : Token (Token Atom) → List Char
  | .literal t => d.spell t
  | .and => ' ' :: d.andOp.toList ++ [' ']
  | .or => ' ' :: d.orOp.toList ++ [' ']
  | .opening => [d.opening]
  | .closing => [d.closing]

end Dialect

namespace Formula

/-- The characters of a formula in a dialect. -/
def spell (d : Dialect) (e : Formula (Token Atom)) : List Char :=
  e.toTokens.flatMap d.spellSpaced

/-- A formula in a dialect. -/
def write (d : Dialect) (e : Formula Leaf) : String :=
  String.ofList ((e.map Token.written).spell d)

/-- A formula as it is shown, in the style `c`. -/
def display (e : Formula Leaf) : String :=
  e.write Style.c.dialect

end Formula

end PositiveLogic
