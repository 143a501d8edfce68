/-!
# JSON values

A JSON string may hold half of a surrogate pair, which no text has; its content is then `none`.
The fields of an object stand in their order and may repeat.

`Json.compact` writes a value on one line without spaces; `Json.pretty` starts a line for every
item and field, with two spaces for each level. Of the characters of a string only the quote, the
backslash and the control characters below U+0020 are escaped.
-/

namespace PositiveLogic

/-- A JSON value. -/
inductive Json
  | null
  | bool (b : Bool)
  | number (digits : String)
  | string (content : Option String)
  | array (items : List Json)
  | object (fields : List (Option String × Json))

namespace Json

/-- The value of a text. -/
def text (s : String) : Json := string (some s)

/-- The value of a list of texts. -/
def texts (ss : List String) : Json := array (ss.map text)

/-- The object with these fields. -/
def record (fields : List (String × Json)) : Json :=
  object (fields.map fun (k, v) => (some k, v))

/-- The text of a value that is one. -/
def text? : Json → Option String
  | string content => content
  | _ => none

/-- The character of a value that is a text of one. -/
def char? (v : Json) : Option Char :=
  match v.text?.map String.toList with
  | some [c] => some c
  | _ => none

/-- The truth value of a value that is one. -/
def bool? : Json → Option Bool
  | bool b => some b
  | _ => none

/-- What all items of an array stand for. -/
def listOf? {α : Type} (f : Json → Option α) : Json → Option (List α)
  | array items => items.mapM f
  | _ => none

/-! ## From values to text -/

/-- The hexadecimal digit of a number below 16. -/
def hexDigit (n : Nat) : Char :=
  if n < 10 then Char.ofNat ('0'.toNat + n) else Char.ofNat ('a'.toNat + (n - 10))

/-- A character as it stands in a string. -/
def writeChar (c : Char) : List Char :=
  match c with
  | '"' => ['\\', '"']
  | '\\' => ['\\', '\\']
  | '\x08' => ['\\', 'b']
  | '\t' => ['\\', 't']
  | '\n' => ['\\', 'n']
  | '\x0c' => ['\\', 'f']
  | '\r' => ['\\', 'r']
  | c =>
    if c.toNat < 0x20 then
      ['\\', 'u', '0', '0', hexDigit (c.toNat / 16), hexDigit (c.toNat % 16)]
    else [c]

/-- A text as a string. -/
def writeText (s : String) : String :=
  String.ofList ('"' :: s.toList.flatMap writeChar ++ ['"'])

/-- The content of a string as a string; half of a surrogate pair has no written form here, and the
replacement character stands for such a content. -/
def writeContent (content : Option String) : String :=
  writeText (content.getD "\uFFFD")

/-- How the parts of a value are set apart: all on one line, or on lines of their own at a
level. -/
inductive Layout
  | line
  | lines (level : Nat)

namespace Layout

/-- The layout of the parts of a value. -/
def deeper : Layout → Layout
  | line => line
  | lines level => lines (level + 1)

/-- What stands in front of a part. -/
def lineStart : Layout → String
  | line => ""
  | lines level => "\n" ++ String.ofList (List.replicate (2 * level) ' ')

/-- What stands between a key and its value. -/
def colon : Layout → String
  | line => ":"
  | lines _ => ": "

end Layout

/-- Parts between two brackets. -/
def enclose (layout : Layout) (left right : String) (parts : List String) : String :=
  if parts.isEmpty then left ++ right
  else
    left ++ layout.deeper.lineStart ++ ("," ++ layout.deeper.lineStart).intercalate parts
      ++ layout.lineStart ++ right

mutual

/-- A value in a layout. -/
def writeWith (layout : Layout) : Json → String
  | null => "null"
  | bool b => if b then "true" else "false"
  | number digits => digits
  | string content => writeContent content
  | array items => enclose layout "[" "]" (writeItems layout.deeper items)
  | object fields => enclose layout "\x7b" "\x7d" (writeFields layout.deeper fields)

/-- The items of an array. -/
def writeItems (layout : Layout) : List Json → List String
  | [] => []
  | v :: vs => writeWith layout v :: writeItems layout vs

/-- The fields of an object. -/
def writeFields (layout : Layout) : List (Option String × Json) → List String
  | [] => []
  | (k, v) :: fields =>
    (writeContent k ++ layout.colon ++ writeWith layout v) :: writeFields layout fields

end

/-- A value on one line. -/
def compact (v : Json) : String := v.writeWith .line

/-- A value on several lines. -/
def pretty (v : Json) : String := v.writeWith (.lines 0)

end Json

end PositiveLogic
