import PositiveLogic.Token.Operator
import PositiveLogic.Token.Quoted

/-!
# The written form of a token

`Dialect.spell` writes a token. A plain literal stands bare if nothing in its text would be read
as a sign. Otherwise it is quoted, or, behind modifiers, its special characters are escaped, so
that it is read back as one literal where the signs of the dialect differ. The text of a call is
written as it stands.
-/

namespace PositiveLogic

namespace Dialect

/-- Whether the first character of a text needs care in a literal; `atStart` says that nothing of
the literal stands in front of it. -/
def isSpecial (d : Dialect) (atStart : Bool) : List Char → Bool
  | [] => false
  | c :: cs =>
    (Text.isBlank c && (d.splitOnBlank || atStart || cs.isEmpty)) || c == escape || c == d.quote
      || c == d.opening || c == d.closing || (d.operatorAt? (c :: cs)).isSome

/-- Whether some character of a text needs care in a literal. -/
def hasSpecial (d : Dialect) (atStart : Bool) : List Char → Bool
  | [] => false
  | c :: cs => d.isSpecial atStart (c :: cs) || d.hasSpecial false cs

/-- A text with an escape in front of each character that needs care. -/
def escapeSpecial (d : Dialect) (atStart : Bool) : List Char → List Char
  | [] => []
  | c :: cs =>
    if d.isSpecial atStart (c :: cs) then escape :: c :: d.escapeSpecial false cs
    else c :: d.escapeSpecial false cs

/-- Whether a text starts with a modifier. -/
def startsWithModifier (d : Dialect) : List Char → Bool
  | [] => false
  | c :: _ => d.isModifier c

/-- The written form of a plain literal without modifiers. -/
def spellBare (d : Dialect) (text : List Char) : List Char :=
  if text.isEmpty || d.hasSpecial true text || d.startsWithModifier text then
    Quoted.write d.quote text
  else text

/-- The written form of a literal. -/
def spellAtom (d : Dialect) (a : Atom) : List Char :=
  match a.call with
  | some _ => a.modifiers ++ a.value.toList
  | none =>
    if a.modifiers.isEmpty then d.spellBare a.value.toList
    else a.modifiers ++ d.escapeSpecial true a.value.toList

/-- The written form of a token. -/
def spell (d : Dialect) : Token Atom → List Char
  | .literal a => d.spellAtom a
  | .and => d.andOp.toList
  | .or => d.orOp.toList
  | .opening => [d.opening]
  | .closing => [d.closing]

end Dialect

end PositiveLogic
