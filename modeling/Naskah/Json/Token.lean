/-
  The tokens of a JSON text.  Characters are taken one by one; between them the reader is either
  between tokens or inside a word, a number or a string literal.

  Taken for granted of `from_str` of the package `serde_json`: the four blanks of JSON, no zero in
  front of other digits, digits behind every point and exponent mark, no character below 32 in a
  string literal, and escapes of 16-bit units that denote a text only if the halves of pairs stand
  side by side.
-/
import Naskah.Json.Basic

namespace Naskah.Json

/-- A token. -/
inductive Tok
  | openArr
  | closeArr
  | openObj
  | closeObj
  | comma
  | colon
  | null
  | bool (b : Bool)
  | num (n : Numeral)
  | str (s : Option String)

/-- The literal that characters spell: no superfluous zero in front, and digits after every point
    and exponent mark. -/
def numeralOfChars? (cs : List Char) : Option Numeral :=
  let (negative, cs) := match cs with
    | '-' :: cs => (true, cs)
    | cs => (false, cs)
  let whole := cs.takeWhile Char.isDigit
  let rest := cs.dropWhile Char.isDigit
  let (fraction, rest) := match rest with
    | '.' :: rest => (some (rest.takeWhile Char.isDigit), rest.dropWhile Char.isDigit)
    | rest => (none, rest)
  if whole = [] ∨ (whole.head? = some '0' ∧ whole ≠ ['0']) ∨ fraction = some [] then none
  else
    let n : Numeral :=
      { negative, whole := Decimal.natOfDigits whole, fraction := fraction.getD [] }
    if rest = [] then some n
    else (Decimal.exponentOfChars? rest).map fun e => { n with exponent := some e }

/-- The character that a one-letter escape stands for. -/
def escaped? : Char → Option Char
  | '"' => some '"'
  | '\\' => some '\\'
  | '/' => some '/'
  | 'b' => some '\x08'
  | 'f' => some '\x0c'
  | 'n' => some '\n'
  | 'r' => some '\r'
  | 't' => some '\t'
  | _ => none

def hexValue? (c : Char) : Option Nat :=
  if c.isDigit then some (c.toNat - '0'.toNat)
  else if 'a' ≤ c ∧ c ≤ 'f' then some (c.toNat - 'a'.toNat + 10)
  else if 'A' ≤ c ∧ c ≤ 'F' then some (c.toNat - 'A'.toNat + 10)
  else none

/-- The 16-bit unit that four hexadecimal digits name. -/
def hexUnit? (a b c d : Char) : Option Nat := do
  let a ← hexValue? a
  let b ← hexValue? b
  let c ← hexValue? c
  let d ← hexValue? d
  return ((a * 16 + b) * 16 + c) * 16 + d

/-- The pieces of a string literal between its quotes: characters, and units named by escapes. -/
def pieces? : List Char → Option (List (Char ⊕ Nat))
  | [] => some []
  | '\\' :: 'u' :: a :: b :: c :: d :: cs => do
    let n ← hexUnit? a b c d
    let ps ← pieces? cs
    return .inr n :: ps
  | '\\' :: c :: cs => do
    let c ← escaped? c
    let ps ← pieces? cs
    return .inl c :: ps
  | c :: cs => do
    if c = '\\' then none
    let ps ← pieces? cs
    return .inl c :: ps

/-- The characters of the pieces, if every half of a pair stands beside its other half. -/
def joinPieces? : List (Char ⊕ Nat) → Option (List Char)
  | [] => some []
  | .inl c :: ps => (joinPieces? ps).map (c :: ·)
  | [.inr n] => if n < 0xd800 ∨ 0xdfff < n then some [Char.ofNat n] else none
  | .inr n :: p :: ps =>
    if n < 0xd800 ∨ 0xdfff < n then (joinPieces? (p :: ps)).map (Char.ofNat n :: ·)
    else
      match p with
      | .inl _ => none
      | .inr k =>
        if n < 0xdc00 ∧ 0xdc00 ≤ k ∧ k ≤ 0xdfff then
          (joinPieces? ps).map
            (Char.ofNat (0x10000 + (n - 0xd800) * 0x400 + (k - 0xdc00)) :: ·)
        else none

/-- Where the reader is.  What has been read of a token stands in reverse. -/
inductive Mode
  | between
  | word (read : List Char)
  | number (read : List Char)
  | string (read : List Char)
  /-- Inside a string literal, after a backslash. -/
  | escape (read : List Char)

/-- The token that a word spells. -/
def wordTok? (cs : List Char) : Option Tok :=
  match String.ofList cs with
  | "null" => some .null
  | "true" => some (.bool true)
  | "false" => some (.bool false)
  | _ => none

/-- The blanks of JSON. -/
def isBlank (c : Char) : Bool :=
  c == ' ' || c == '\n' || c == '\r' || c == '\t'

/-- Characters of which number literals consist. -/
def isNumeric (c : Char) : Bool :=
  c.isDigit || c == '-' || c == '+' || c == '.' || c == 'e' || c == 'E'

/-- Tokens read so far, in reverse, and where the reader is. -/
structure Reader where
  tokens : List Tok := []
  mode : Mode := .between

namespace Reader

/-- Takes a character between tokens. -/
def start? (tokens : List Tok) (c : Char) : Option Reader :=
  match c with
  | '[' => some ⟨.openArr :: tokens, .between⟩
  | ']' => some ⟨.closeArr :: tokens, .between⟩
  | '{' => some ⟨.openObj :: tokens, .between⟩
  | '}' => some ⟨.closeObj :: tokens, .between⟩
  | ',' => some ⟨.comma :: tokens, .between⟩
  | ':' => some ⟨.colon :: tokens, .between⟩
  | '"' => some ⟨tokens, .string []⟩
  | c =>
    if isBlank c then some ⟨tokens, .between⟩
    else if c.isDigit || c == '-' then some ⟨tokens, .number [c]⟩
    else if c.isAlpha then some ⟨tokens, .word [c]⟩
    else none

/-- Ends the token that is being read, if it can end here. -/
def close? (r : Reader) : Option (List Tok) :=
  match r.mode with
  | .between => some r.tokens
  | .word read => (wordTok? read.reverse).map (· :: r.tokens)
  | .number read => (numeralOfChars? read.reverse).map (.num · :: r.tokens)
  | .string _ | .escape _ => none

/-- Takes a character. -/
def step? (r : Reader) (c : Char) : Option Reader :=
  match r.mode with
  | .between => start? r.tokens c
  | .word read =>
    if c.isAlpha then some { r with mode := .word (c :: read) }
    else r.close?.bind (start? · c)
  | .number read =>
    if isNumeric c then some { r with mode := .number (c :: read) }
    else r.close?.bind (start? · c)
  | .string read =>
    if c = '"' then do
      let ps ← pieces? read.reverse
      return ⟨.str ((joinPieces? ps).map String.ofList) :: r.tokens, .between⟩
    else if c = '\\' then some { r with mode := .escape (c :: read) }
    else if c.toNat < 0x20 then none
    else some { r with mode := .string (c :: read) }
  | .escape read => some { r with mode := .string (c :: read) }

end Reader

/-- The tokens of a text. -/
def tokens? (cs : List Char) : Option (List Tok) := do
  let r ← cs.foldlM Reader.step? ({} : Reader)
  let ts ← r.close?
  return ts.reverse

end Naskah.Json
