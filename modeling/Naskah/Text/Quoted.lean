/-
  Quoted text: a text between double quotes in which every character is either itself or an escape
  that starts with a backslash.  Quotes, backslashes and line ends never stand raw between the
  quotes, so a quoted text fills part of one line and its end can be found.
-/
import Naskah.Text.Blank
import Naskah.Text.GraphemeBase

namespace Naskah.Text

/-- Letters that hold the place of a letter and are never drawn: the Hangul fillers. -/
def isFiller (c : Char) : Bool :=
  ['\u115f', '\u1160', '\u3164', '\uffa0'].contains c

/-- Marks that extend the character before them and yet take up room of their own: the sound marks
    of halfwidth Katakana. -/
def isSpacedMark (c : Char) : Bool :=
  ['\uff9e', '\uff9f'].contains c

/-- Whether a character is shown as itself, because it can be seen where it stands: no control, no
    blank but the space, no filler, and no mark that merges with the character before it. -/
def isShown (c : Char) : Bool :=
  if c.toNat < 0x7f then 0x20 ≤ c.toNat
  else (isGraphemeBase c || isSpacedMark c) && !isBlank c && !isFiller c

/-- The escape of a character by its code point, in lower case without padding. -/
def escapeCode (c : Char) : List Char :=
  ['\\', 'u', '{'] ++ Nat.toDigits 16 c.toNat ++ ['}']

/-- What stands for a character inside a quoted text. -/
def quoteChar (c : Char) : List Char :=
  match c with
  | '\x00' => ['\\', '0']
  | '\t' => ['\\', 't']
  | '\r' => ['\\', 'r']
  | '\n' => ['\\', 'n']
  | '"' => ['\\', '"']
  | '\\' => ['\\', '\\']
  | c => if isShown c then [c] else escapeCode c

/-- The quoted text. -/
def quote (s : String) : String :=
  String.ofList ('"' :: s.toList.flatMap quoteChar ++ ['"'])

end Naskah.Text
