import PositiveLogic.Text

/-!
# The literal being read

A `Buffer` holds the characters of an unquoted literal while it is read, each with a mark that
says whether it was escaped. The blanks at its ends belong to the literal only if they were
escaped: `Buffer.text` leaves the others out, and `Buffer.isVacant` says that nothing is left.
-/

namespace PositiveLogic

/-- A character of a literal, and whether it was escaped. -/
structure Mark where
  char : Char
  escaped : Bool
  deriving DecidableEq

namespace Mark

/-- Whether a character is left out at the ends of a literal: a blank that was not escaped. -/
def isSlack (m : Mark) : Bool :=
  !m.escaped && Text.isBlank m.char

end Mark

/-- The characters of an unquoted literal read so far. -/
structure Buffer where
  newestFirst : List Mark
  deriving DecidableEq

namespace Buffer

/-- The buffer without characters. -/
def empty : Buffer := ⟨[]⟩

/-- The characters in the order in which they were read. -/
def marks (b : Buffer) : List Mark :=
  b.newestFirst.reverse

/-- Add a character as it stands. -/
def push (b : Buffer) (c : Char) : Buffer :=
  ⟨⟨c, false⟩ :: b.newestFirst⟩

/-- Add a character that was escaped. -/
def pushEscaped (b : Buffer) (c : Char) : Buffer :=
  ⟨⟨c, true⟩ :: b.newestFirst⟩

/-- The text of the literal. -/
def text (b : Buffer) : List Char :=
  (Text.trimBy Mark.isSlack b.marks).map Mark.char

/-- Whether no character of the buffer belongs to a literal. -/
def isVacant (b : Buffer) : Bool :=
  b.newestFirst.all Mark.isSlack

@[simp] theorem marks_empty : empty.marks = [] := rfl

@[simp] theorem marks_push (b : Buffer) (c : Char) :
    (b.push c).marks = b.marks ++ [⟨c, false⟩] := by
  simp [marks, push]

@[simp] theorem marks_pushEscaped (b : Buffer) (c : Char) :
    (b.pushEscaped c).marks = b.marks ++ [⟨c, true⟩] := by
  simp [marks, pushEscaped]

theorem isVacant_eq (b : Buffer) : b.isVacant = b.marks.all Mark.isSlack := by
  simp [isVacant, marks]

end Buffer

end PositiveLogic
