/-
  Nesting: the brackets and quotes that are open.  A curly bracket directly inside a quote belongs
  to a hole of the string.
-/
import Naskah.Vocabulary

namespace Naskah

/-- A bracket or quote that has to be closed. -/
inductive Delimiter
  | round
  | curly
  | quote (q : Quote)
  deriving DecidableEq

namespace Delimiter

/-- The character that closes a delimiter. -/
def closer : Delimiter → Char
  | round => ')'
  | curly => '}'
  | quote q => q.char

def isQuote : Delimiter → Bool
  | quote _ => true
  | _ => false

/-- The delimiter of a quote character. -/
def ofQuoteChar? (c : Char) : Option Delimiter :=
  if c = Quote.double.char then some (quote .double)
  else if c = Quote.single.char then some (quote .single)
  else none

end Delimiter

/-- The open delimiters, the innermost first. -/
abbrev Nesting := List Delimiter

namespace Nesting

/-- Whether the text of a string comes next. -/
def inString (n : Nesting) : Bool :=
  match n with
  | d :: _ => d.isQuote
  | [] => false

/-- Whether the innermost delimiter is that of a hole. -/
def inHole (n : Nesting) : Bool :=
  match n with
  | .curly :: d :: _ => d.isQuote
  | _ => false

/-- The character that closes the innermost delimiter. -/
def closer? (n : Nesting) : Option Char :=
  n.head?.map Delimiter.closer

end Nesting

end Naskah
