/-
  Tokens: what the compiler reads off a source.  Literals keep their text, and the line they stand
  on; the holes of a string are compiled when the string is complete.
-/
import Naskah.Assembly
import Naskah.Vocabulary

namespace Naskah

/-- A piece of source text and the line it stands on. -/
structure Literal where
  text : String
  line : UInt32
  deriving DecidableEq

/-- A part of a string: text, or the code of a hole. -/
inductive StringPart
  | text (s : String)
  | hole (code : List Asm)
  deriving DecidableEq

/-- A string and the line it begins on. -/
structure StringLiteral where
  parts : List StringPart
  line : UInt32
  deriving DecidableEq

inductive Token
  | keyword (k : Keyword)
  | operator (o : Operator)
  | compound (c : Compound)
  | bracket (b : Bracket)
  | punctuation (p : Punctuation)
  | integer (l : Literal)
  | float (l : Literal)
  | boolean (l : Literal)
  | string (s : StringLiteral)
  | identifier (l : Literal)
  deriving DecidableEq

/-- The text of a part of a string, with a hole abbreviated. -/
def StringPart.shown : StringPart → String
  | text s => s
  | hole _ => "$\x7b...\x7d"

namespace Token

def ofSymbol : Symbol → Token
  | .keyword k => keyword k
  | .operator o => operator o
  | .compound c => compound c
  | .bracket b => bracket b
  | .punctuation p => punctuation p

/-- The text of a token, as error messages show it. -/
def text : Token → String
  | keyword k => (Symbol.keyword k).text
  | operator o => (Symbol.operator o).text
  | compound c => (Symbol.compound c).text
  | bracket b => (Symbol.bracket b).text
  | punctuation p => (Symbol.punctuation p).text
  | integer l | float l | boolean l | identifier l => l.text
  | string s => "\"" ++ String.join (s.parts.map StringPart.shown) ++ "\""

end Token

end Naskah
