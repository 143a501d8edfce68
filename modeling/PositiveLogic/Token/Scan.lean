import PositiveLogic.Token.Buffer
import PositiveLogic.Token.CallBody
import PositiveLogic.Token.Operator
import PositiveLogic.Token.Quoted

/-!
# From text to tokens

`Token.scan` cuts a text into tokens. It works from left to right and holds the unquoted literal
that is being read in a buffer. The tests come in a fixed order: blank, escape, quote, operator,
opening character, closing character; any other character belongs to the literal. A quote counts
only where no literal has begun, and an opening character starts a group there and a call after
the beginning of a literal.

`Token.ofText` locates a fault by the position of its first character.
-/

namespace PositiveLogic

/-- A fault in the form of a literal, and where it is. -/
structure ScanError where
  fault : Fault
  position : Nat
  deriving DecidableEq

namespace ScanError

/-- What is shown of an error. -/
def message : ScanError → String
  | ⟨.unterminatedContainer, position⟩ =>
    s!"unterminated container starting at position {position}"
  | ⟨.unterminatedQuote, position⟩ => s!"unterminated quote starting at position {position}"
  | ⟨.danglingEscape, position⟩ => s!"dangling escape character at position {position}"

end ScanError

namespace Dialect

/-- The plain literal of an unquoted text: the longest run of modifiers at its start is taken
off. -/
def plain (d : Dialect) (text : List Char) : Atom where
  modifiers := text.takeWhile d.isModifier
  value := String.ofList (text.dropWhile d.isModifier)

/-- The call with what stands in front of its opening character and what is read after it. -/
def call (d : Dialect) (head : List Char) (body : CallBody) : Atom where
  modifiers := head.takeWhile d.isModifier
  value := String.ofList (head.dropWhile d.isModifier ++ d.opening :: body.raw)
  call := some ⟨String.ofList (head.dropWhile d.isModifier), body.params⟩

/-- The literal that ends here, if one has begun. -/
def flush (d : Dialect) (buffer : Buffer) : List (Token Atom) :=
  match buffer.text with
  | [] => []
  | text => [.literal (d.plain text)]

end Dialect

namespace Token

/-- Put tokens in front of those that are still to be read. -/
def thenScan (ts : List (Token Atom)) :
    Except ScanError (List (Token Atom)) → Except ScanError (List (Token Atom))
  | .ok us => .ok (ts ++ us)
  | .error e => .error e

/-- The tokens of a text, given the literal that has begun in front of it. Here the position of an
error is counted from the end of the text: 1 is its last character. -/
def scan (d : Dialect) (buffer : Buffer) : List Char → Except ScanError (List (Token Atom))
  | [] => .ok (d.flush buffer)
  | c :: cs =>
    if Text.isBlank c then
      if d.splitOnBlank then thenScan (d.flush buffer) (scan d .empty cs)
      else scan d (buffer.push c) cs
    else if c = escape then
      match cs with
      | [] => .error ⟨.danglingEscape, 1⟩
      | e :: cs => scan d (buffer.pushEscaped e) cs
    else if c = d.quote ∧ buffer.isVacant then
      match h : Quoted.read d.quote cs with
      | .ok (text, rest) =>
        thenScan [.literal ⟨[], String.ofList text, none⟩] (scan d .empty rest)
      | .error .danglingEscape => .error ⟨.danglingEscape, 1⟩
      | .error fault => .error ⟨fault, cs.length + 1⟩
    else
      match h : d.operatorAt? (c :: cs) with
      | some (op, rest) => thenScan (d.flush buffer ++ [op]) (scan d .empty rest)
      | none =>
        if c = d.opening then
          if buffer.isVacant then thenScan [.opening] (scan d .empty cs)
          else
            match h : CallBody.read d 0 cs with
            | some body => thenScan [.literal (d.call buffer.text body)] (scan d .empty body.rest)
            | none => .error ⟨.unterminatedContainer, cs.length + 1⟩
        else if c = d.closing then thenScan (d.flush buffer ++ [.closing]) (scan d .empty cs)
        else scan d (buffer.push c) cs
termination_by cs => cs.length
decreasing_by
  · exact Nat.lt_succ_self _
  · exact Nat.lt_succ_self _
  · exact Nat.lt_succ_of_lt (Nat.lt_succ_self _)
  · exact Nat.lt_succ_of_lt (Quoted.length_rest_lt h)
  · exact Dialect.length_rest_lt_of_operatorAt? h
  · exact Nat.lt_succ_self _
  · exact Nat.lt_succ_of_lt (CallBody.length_rest_lt h)
  · exact Nat.lt_succ_self _
  · exact Nat.lt_succ_self _

/-- The tokens of a text. Positions are counted from the start: 0 is the first character. -/
def ofText (d : Dialect) (s : String) : Except ScanError (List (Token Atom)) :=
  match scan d .empty s.toList with
  | .ok ts => .ok ts
  | .error e => .error { e with position := s.length - e.position }

end Token

end PositiveLogic
