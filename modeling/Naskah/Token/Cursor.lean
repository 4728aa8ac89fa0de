/-
  Sources and cursors.  A source is a buffer of characters, and its text ends at the end mark or
  with the last character.  A cursor stands before the rest of the buffer and knows its line.  Lines
  are counted in 32 bits: after line `2 ^ 32 - 1` the count goes on with 0.

  Between tokens there are gaps of blanks and comments.  A block comment that never ends swallows
  the rest of the buffer, what follows the end mark included.
-/
import Naskah.Text.Blank

namespace Naskah

/-- The character that ends the text of a source. -/
def endMark : Char := '\x00'

/-- Whether the text of a source ends here. -/
def atEnd : List Char → Bool
  | [] => true
  | c :: _ => c == endMark

/-- A place in a source. -/
structure Cursor where
  /-- What has not been read, with the end mark and all that follows it. -/
  rest : List Char
  line : UInt32 := 1

namespace Cursor

/-- The beginning of a source. -/
def start (source : String) : Cursor :=
  { rest := source.toList }

/-- The number of characters of a source before a cursor. -/
def position (source : String) (c : Cursor) : Nat :=
  source.length - c.rest.length

/-- The line after a character. -/
def lineAfter (line : UInt32) (c : Char) : UInt32 :=
  if c = '\n' then line + 1 else line

/-- The parts of a gap. -/
inductive GapMode
  | blanks
  | lineComment
  | blockComment

/-- What comes after a gap, and whether a comment was cut off by the end of the text. -/
structure Gap where
  rest : List Char
  line : UInt32
  truncated : Bool

/-- Skips a gap. -/
def skip : GapMode → UInt32 → List Char → Gap
  | .blanks, line, '/' :: '/' :: cs => skip .lineComment line cs
  | .blanks, line, '/' :: '*' :: cs => skip .blockComment line cs
  | .blanks, line, c :: cs =>
    if Text.isBlank c then skip .blanks (lineAfter line c) cs else ⟨c :: cs, line, false⟩
  | .blanks, line, [] => ⟨[], line, false⟩
  | .lineComment, line, c :: cs =>
    if c = endMark then ⟨c :: cs, line, false⟩
    else if c = '\n' then skip .blanks (line + 1) cs
    else skip .lineComment line cs
  | .lineComment, line, [] => ⟨[], line, false⟩
  | .blockComment, line, '*' :: '/' :: cs => skip .blanks line cs
  | .blockComment, line, c :: cs =>
    if c = endMark then ⟨[], line, true⟩ else skip .blockComment (lineAfter line c) cs
  | .blockComment, line, [] => ⟨[], line, true⟩

/-- The gap at a cursor. -/
def gap (c : Cursor) : Gap :=
  skip .blanks c.line c.rest

end Cursor

end Naskah
