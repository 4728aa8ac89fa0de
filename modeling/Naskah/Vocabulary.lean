/-
  The vocabulary: every fixed piece of source text, with its number and what it stands for.  Words
  are keywords; all other pieces are symbols of one to three characters.
-/
import Naskah.Program

namespace Naskah

/-- The words with a meaning of their own. -/
inductive Keyword
  | function
  | print
  | equal
  | notEqual
  | consequence
  | skip
  | stop
  | cond
  | otherwise
  | choice
  | iterate
  | loop
  | var
  | const
  | delete
  | result
  | entry
  | type (t : TypeName)
  deriving DecidableEq

namespace Keyword

/-- Whether a block in curly brackets belongs to the keyword. -/
def opensBlock : Keyword → Bool
  | entry | cond | otherwise | choice | iterate | loop => true
  | _ => false

/-- Whether a blank has to follow the keyword. -/
def requiresBlank : Keyword → Bool
  | function | consequence | result | var | const => true
  | _ => false

end Keyword

/-- The signs that stand between operands, and the negation sign. -/
inductive Operator
  | binary (op : Operation)
  | compare (c : Comparison)
  | negation
  deriving DecidableEq

/-- How tightly an operator binds.  Operators of one precedence group to the left. -/
def Operator.precedence : Operator → Nat
  | binary .bitAnd | binary .bitOr | binary .shl | binary .shr | negation => 0
  | binary .add | binary .sub => 1
  | binary .mul | binary .div | binary .mod => 2
  | binary .pow => 3
  | binary .and | binary .or | compare _ => 4

/-- Assignments that compute the new value from the old one. -/
inductive Compound
  | assign (op : Operation)
  | increment
  | decrement
  deriving DecidableEq

namespace Compound

/-- The operation that gives the new value. -/
def operation : Compound → Operation
  | assign op => op
  | increment => .add
  | decrement => .sub

/-- Whether the right operand is one and not written. -/
def isStep : Compound → Bool
  | assign _ => false
  | increment | decrement => true

end Compound

inductive Bracket
  | openRound
  | closeRound
  | openCurly
  | closeCurly
  | openSquare
  | closeSquare
  deriving DecidableEq

/-- The quotes that a string can stand between. -/
inductive Quote
  | double
  | single
  deriving DecidableEq

/-- The character of a quote. -/
def Quote.char : Quote → Char
  | double => '"'
  | single => '\''

inductive Punctuation
  | quote (q : Quote)
  | tripleQuote
  | semicolon
  | space
  | comma
  | dollar
  | colon
  | assign
  | lineComment
  | openComment
  | closeComment
  | endOfText
  deriving DecidableEq

/-- The quote that a punctuation mark is. -/
def Punctuation.quote? : Punctuation → Option Quote
  | quote q => some q
  | _ => none

/-- What a piece of the vocabulary stands for. -/
inductive Symbol
  | keyword (k : Keyword)
  | operator (o : Operator)
  | compound (c : Compound)
  | bracket (b : Bracket)
  | punctuation (p : Punctuation)
  deriving DecidableEq

/-- Whether a piece is a word. -/
def Symbol.isKeyword : Symbol → Bool
  | keyword _ => true
  | _ => false

/-- A piece of the vocabulary. -/
structure Lexeme where
  text : String
  id : Nat
  symbol : Symbol
  deriving DecidableEq

namespace Vocabulary

open Naskah.Symbol

/-- All pieces. -/
def lexemes : List Lexeme :=
  [⟨"fungsi", 100, keyword .function⟩,
   ⟨"tampilkan", 101, keyword .print⟩,
   ⟨"adalah", 102, keyword .equal⟩,
   ⟨"bukan", 103, keyword .notEqual⟩,
   ⟨"maka", 104, keyword .consequence⟩,
   ⟨"lewati", 105, keyword .skip⟩,
   ⟨"berhenti", 106, keyword .stop⟩,
   ⟨"jika", 107, keyword .cond⟩,
   ⟨"selainnya", 108, keyword .otherwise⟩,
   ⟨"cocokkan", 109, keyword .choice⟩,
   ⟨"untuk", 110, keyword .iterate⟩,
   ⟨"selama", 111, keyword .loop⟩,
   ⟨"variabel", 112, keyword .var⟩,
   ⟨"konstanta", 113, keyword .const⟩,
   ⟨"hapus", 114, keyword .delete⟩,
   ⟨"hasilkan", 115, keyword .result⟩,
   ⟨"utama", 116, keyword .entry⟩,
   ⟨"+=", 200, compound (.assign .add)⟩,
   ⟨"-=", 201, compound (.assign .sub)⟩,
   ⟨"*=", 202, compound (.assign .mul)⟩,
   ⟨"/=", 203, compound (.assign .div)⟩,
   ⟨"%=", 204, compound (.assign .mod)⟩,
   ⟨"**=", 205, compound (.assign .pow)⟩,
   ⟨"++", 206, compound .increment⟩,
   ⟨"--", 207, compound .decrement⟩,
   ⟨"&=", 208, compound (.assign .bitAnd)⟩,
   ⟨"|=", 209, compound (.assign .bitOr)⟩,
   ⟨"<<=", 210, compound (.assign .shl)⟩,
   ⟨">>=", 211, compound (.assign .shr)⟩,
   ⟨"+", 300, operator (.binary .add)⟩,
   ⟨"-", 301, operator (.binary .sub)⟩,
   ⟨"*", 302, operator (.binary .mul)⟩,
   ⟨"**", 303, operator (.binary .pow)⟩,
   ⟨"/", 304, operator (.binary .div)⟩,
   ⟨"%", 305, operator (.binary .mod)⟩,
   ⟨"==", 306, operator (.compare .eq)⟩,
   ⟨"&&", 307, operator (.binary .and)⟩,
   ⟨"||", 308, operator (.binary .or)⟩,
   ⟨">", 309, operator (.compare .gt)⟩,
   ⟨"<", 310, operator (.compare .lt)⟩,
   ⟨"&", 311, operator (.binary .bitAnd)⟩,
   ⟨"|", 312, operator (.binary .bitOr)⟩,
   ⟨"!", 313, operator .negation⟩,
   ⟨"<<", 314, operator (.binary .shl)⟩,
   ⟨">>", 315, operator (.binary .shr)⟩,
   ⟨">=", 316, operator (.compare .ge)⟩,
   ⟨"<=", 317, operator (.compare .le)⟩,
   ⟨"!=", 318, operator (.compare .ne)⟩,
   ⟨"apapun", 400, keyword (.type .any)⟩,
   ⟨"campuran", 401, keyword (.type .string)⟩,
   ⟨"himpunan", 402, keyword (.type .array)⟩,
   ⟨"pecahan", 403, keyword (.type .float)⟩,
   ⟨"desimal", 404, keyword (.type .int)⟩,
   ⟨"boolean", 405, keyword (.type .boolean)⟩,
   ⟨"karakter", 406, keyword (.type .character)⟩,
   ⟨"kamus", 407, keyword (.type .dictionary)⟩,
   ⟨"(", 500, bracket .openRound⟩,
   ⟨")", 501, bracket .closeRound⟩,
   ⟨"\x7b", 502, bracket .openCurly⟩,
   ⟨"\x7d", 503, bracket .closeCurly⟩,
   ⟨"[", 506, bracket .openSquare⟩,
   ⟨"]", 507, bracket .closeSquare⟩,
   ⟨"\"", 700, punctuation (.quote .double)⟩,
   ⟨";", 701, punctuation .semicolon⟩,
   ⟨" ", 702, punctuation .space⟩,
   ⟨",", 703, punctuation .comma⟩,
   ⟨"$", 704, punctuation .dollar⟩,
   ⟨"'", 705, punctuation (.quote .single)⟩,
   ⟨"\"\"\"", 706, punctuation .tripleQuote⟩,
   ⟨":", 707, punctuation .colon⟩,
   ⟨"=", 708, punctuation .assign⟩,
   ⟨"//", 709, punctuation .lineComment⟩,
   ⟨"/*", 710, punctuation .openComment⟩,
   ⟨"*/", 711, punctuation .closeComment⟩,
   ⟨"\x00", 999, punctuation .endOfText⟩]

/-- The piece with a text. -/
def lookup? (text : String) : Option Lexeme :=
  lexemes.find? fun l => l.text = text

/-- The piece with a number. -/
def byId? (id : Nat) : Option Lexeme :=
  lexemes.find? fun l => l.id = id

/-- The keyword with a text. -/
def keyword? (text : String) : Option Keyword :=
  match lookup? text with
  | some ⟨_, _, .keyword k⟩ => some k
  | _ => none

/-- The pieces that are not words. -/
def symbols : List Lexeme :=
  lexemes.filter fun l => !l.symbol.isKeyword

/-- The piece with a text, if it is not a word. -/
def symbol? (text : String) : Option Lexeme :=
  symbols.find? fun l => l.text = text

/-- The characters with which symbols begin. -/
def symbolStarts : List Char :=
  symbols.filterMap fun l => l.text.toList.head?

/-- Whether some symbol begins with the character. -/
def startsSymbol (c : Char) : Bool :=
  symbolStarts.contains c

end Vocabulary

/-- The text of a piece of the vocabulary. -/
def Symbol.text (s : Symbol) : String :=
  ((Vocabulary.lexemes.find? fun l => l.symbol = s).map Lexeme.text).getD "?"

end Naskah
