/-
  Scanning: reading the next token, looking ahead without reading, and reading the text of a
  string up to its closing quote or its next hole.
-/
import Naskah.Diagnostic
import Naskah.Token
import Naskah.Token.Cursor

namespace Naskah

namespace Scan

/-- The next characters, or as many of them as the text has. -/
def window (n : Nat) (cs : List Char) : List Char :=
  (cs.take n).takeWhile (· ≠ endMark)

/-- The longest symbol at the front of a text, and what comes after it. -/
def symbol? (cs : List Char) : Option (Lexeme × List Char) :=
  [3, 2, 1].findSome? fun n =>
    if (window n cs).length = n then
      (Vocabulary.symbol? (String.ofList (window n cs))).map fun l => (l, cs.drop n)
    else none

/-- Whether a word goes on with the character: it is no blank and no symbol begins with it. -/
def isWordChar (c : Char) : Bool :=
  !Text.isBlank c && !Vocabulary.startsSymbol c

/-- The word at the front of a text. -/
def word (cs : List Char) : List Char :=
  cs.takeWhile isWordChar

/-- What comes after the word at the front of a text. -/
def afterWord (cs : List Char) : List Char :=
  cs.dropWhile isWordChar

/-- The symbol or word at the front of a text; there is none at the end. -/
def lexeme? (cs : List Char) : Option String :=
  if atEnd cs then none
  else
    match symbol? cs with
    | some (l, _) => some l.text
    | none => some (String.ofList (word cs))

def isNameStart (c : Char) : Bool :=
  c.isAlpha || c == '_'

def isNameChar (c : Char) : Bool :=
  c.isAlphanum || c == '_'

/-- Whether a word can be a name: letters, digits and underscores, with no digit in front. -/
def isName : List Char → Bool
  | [] => false
  | c :: cs => isNameStart c && cs.all isNameChar

/-- Whether a word is a truth value, in letters of either case. -/
def isTruthWord (w : List Char) : Bool :=
  let w := w.map Char.toLower
  w == "benar".toList || w == "salah".toList

/-- Whether a word is a decimal fraction: digits and exactly one point. -/
def isFraction (w : List Char) : Bool :=
  w.count '.' == 1 && w.length > 1 && w.all fun c => c.isDigit || c == '.'

/-- The token that a word is. -/
def classify (w : List Char) (line : UInt32) : Except Diagnostic Token :=
  let literal : Literal := ⟨String.ofList w, line⟩
  if isTruthWord w then .ok (.boolean literal)
  else if w.all Char.isDigit then .ok (.integer literal)
  else if isFraction w then .ok (.float literal)
  else
    match Vocabulary.keyword? literal.text with
    | some k => .ok (.keyword k)
    | none =>
      if isName w then .ok (.identifier literal)
      else refuse (.illegalName literal.text) line

end Scan

open Scan

/-- What is found after a gap. -/
inductive Lexed
  | token (t : Token)
  | endOfText
  /-- A block comment that never ends. -/
  | truncated

/-- The text of a string up to the first thing that ends it. -/
inductive Segment
  /-- The text before the closing quote. -/
  | closed (s : String)
  /-- The text before a hole. -/
  | hole (s : String)
  /-- The text before the end of the source. -/
  | endOfText (s : String)

namespace Cursor

/-- Reads a token.  The cursor moves over a word that is no token, too. -/
def next (c : Cursor) : Except Diagnostic Lexed × Cursor :=
  let g := c.gap
  if g.truncated then (.ok .truncated, ⟨g.rest, g.line⟩)
  else if atEnd g.rest then (.ok .endOfText, ⟨g.rest, g.line⟩)
  else
    match symbol? g.rest with
    | some (l, rest) => (.ok (.token (.ofSymbol l.symbol)), ⟨rest, g.line⟩)
    | none => ((classify (word g.rest) g.line).map .token, ⟨afterWord g.rest, g.line⟩)

/-- Requires the next symbol or word to be the given one; nothing is read. -/
def search (c : Cursor) (wanted : String) : Except Diagnostic Unit :=
  let g := c.gap
  match lexeme? g.rest with
  | none => refuseAtEnd (.expectedAtEnd wanted)
  | some found => if found = wanted then .ok () else refuse (.expected wanted found) g.line

/-- Requires a blank to follow; nothing is read. -/
def requireBlank (c : Cursor) : Except Diagnostic Unit :=
  if atEnd c.rest then refuseAtEnd (.expectedAtEnd " ")
  else if c.rest.head?.any Text.isBlank then .ok ()
  else refuse (.expected " " ((lexeme? c.rest).getD "")) c.line

/-- Whether the next word is the given one; nothing is read. -/
def nextWordIs (c : Cursor) (w : String) : Bool :=
  let found := word c.gap.rest
  found ≠ [] && found == w.toList

/-- What stands for a backslash and the character after it.  Unknown escapes stay as they are. -/
def unescape : Char → List Char
  | 'n' => ['\n']
  | 't' => ['\t']
  | 'r' => ['\r']
  | '0' => ['\x00']
  | '\\' => ['\\']
  | '"' => ['"']
  | '\'' => ['\'']
  | '$' => ['$']
  | c => ['\\', c]

/-- What ends a text of a string. -/
inductive Stop
  | closed
  | hole
  | endOfText

/-- Reads text up to the quote, a hole or the end.  What has been read stands in reverse. -/
def segmentFrom (quote : Char) :
    List Char → UInt32 → List Char → Stop × List Char × UInt32 × List Char
  | read, line, [] => (.endOfText, read, line, [])
  | read, line, c :: cs =>
    if c = endMark then (.endOfText, read, line, c :: cs)
    else if c = quote then (.closed, read, lineAfter line c, cs)
    else
      match c, cs with
      | '$', '{' :: cs => (.hole, read, line, cs)
      | '\\', [] => (.endOfText, '\\' :: read, line, [])
      | '\\', e :: cs =>
        if e = endMark then (.endOfText, '\\' :: read, line, e :: cs)
        else segmentFrom quote ((unescape e).reverse ++ read) (lineAfter line e) cs
      | c, cs => segmentFrom quote (c :: read) (lineAfter line c) cs

/-- Reads the text of a string that stands between the given quotes. -/
def segment (c : Cursor) (quote : Char) : Segment × Cursor :=
  let (stop, read, line, rest) := segmentFrom quote [] c.line c.rest
  let text := String.ofList read.reverse
  let segment := match stop with
    | .closed => Segment.closed text
    | .hole => .hole text
    | .endOfText => .endOfText text
  (segment, ⟨rest, line⟩)

end Cursor

end Naskah
