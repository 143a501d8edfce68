import PositiveLogic.Token.Basic

/-!
# Neighbouring tokens

A quick test of a list of tokens that looks at neighbours only. `Token.clash?` says what is wrong
with a token behind the one in front of it, and `Token.checkNeighbours` finds the first clash.
-/

namespace PositiveLogic

/-- What can be wrong with two neighbours. -/
inductive Clash
  /-- An operator follows an operator. -/
  | consecutiveOperators
  /-- An operator follows an opening character. -/
  | operatorAfterOpen
  /-- A group opens behind a literal or behind a group. -/
  | misplacedOpen
  deriving DecidableEq

/-- A clash, and the place of the second of the two tokens. -/
structure AdjacencyError where
  clash : Clash
  index : Nat
  deriving DecidableEq

namespace AdjacencyError

/-- What is shown of an error. -/
def message : AdjacencyError → String
  | ⟨.consecutiveOperators, index⟩ => s!"consecutive operators at token {index}"
  | ⟨.operatorAfterOpen, index⟩ =>
    s!"operator directly after an open container at token {index}"
  | ⟨.misplacedOpen, index⟩ =>
    s!"open container at token {index} must start the input or follow an operator "
      ++ "or another open container"

end AdjacencyError

namespace Token

variable {α : Type}

/-- What is wrong with a token behind another one, or at the start. -/
def clash? : Option (Token α) → Token α → Option Clash
  | some .and, .and | some .and, .or | some .or, .and | some .or, .or => some .consecutiveOperators
  | some .opening, .and | some .opening, .or => some .operatorAfterOpen
  | some (.literal _), .opening | some .closing, .opening => some .misplacedOpen
  | _, _ => none

/-- Find the first clash in a list that starts at place `index` behind `before`. -/
def checkNeighboursFrom (index : Nat) (before : Option (Token α)) :
    List (Token α) → Except AdjacencyError Unit
  | [] => .ok ()
  | t :: ts =>
    match clash? before t with
    | some clash => .error ⟨clash, index⟩
    | none => checkNeighboursFrom (index + 1) (some t) ts

/-- Find the first clash in a list. -/
def checkNeighbours (ts : List (Token α)) : Except AdjacencyError Unit :=
  checkNeighboursFrom 0 none ts

end Token

end PositiveLogic
