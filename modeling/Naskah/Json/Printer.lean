/-
  Printing JSON: one item or field on a line, indented by two spaces for each level.

  This stands for `to_string_pretty` of the package `serde_json`.  Taken for granted are this
  layout, empty lists and objects as two brackets, a colon and a space behind the name of a field,
  and in strings the escapes of quotes, backslashes and the characters below 32, of which five have
  letters and the others four hexadecimal digits in lower case.
-/
import Naskah.Json.Basic

namespace Naskah

/-- The characters of a literal. -/
def Numeral.render (n : Numeral) : List Char :=
  let sign := if n.negative then ['-'] else []
  let fraction := if n.fraction = [] then [] else '.' :: n.fraction
  let exponent := match n.exponent with
    | none => []
    | some e => 'e' :: (if e < 0 then '-' else '+') :: Nat.toDigits 10 e.natAbs
  sign ++ Nat.toDigits 10 n.whole ++ fraction ++ exponent

namespace Json

/-- A hexadecimal digit. -/
def hexDigit (n : Nat) : Char :=
  (Nat.toDigits 16 n).headD '0'

/-- What stands for a character in a string literal. -/
def escapeChar (c : Char) : List Char :=
  match c with
  | '"' => ['\\', '"']
  | '\\' => ['\\', '\\']
  | '\x08' => ['\\', 'b']
  | '\x0c' => ['\\', 'f']
  | '\n' => ['\\', 'n']
  | '\r' => ['\\', 'r']
  | '\t' => ['\\', 't']
  | c =>
    if c.toNat < 0x20 then
      ['\\', 'u', '0', '0', hexDigit (c.toNat / 16), hexDigit (c.toNat % 16)]
    else [c]

/-- The string literal of a text. -/
def renderString (s : String) : List Char :=
  '"' :: s.toList.flatMap escapeChar ++ ['"']

/-- A new line at a level of nesting. -/
def newline (level : Nat) : List Char :=
  '\n' :: List.replicate (2 * level) ' '

mutual

/-- The lines of a value that stands at a level of nesting. -/
def renderAt (level : Nat) : Json → List Char
  | null => "null".toList
  | bool true => "true".toList
  | bool false => "false".toList
  | num n => n.render
  | str s => renderString (s.getD "")
  | arr [] => ['[', ']']
  | arr (j :: js) =>
    '[' :: newline (level + 1) ++ renderAt (level + 1) j ++ renderItems (level + 1) js ++
      newline level ++ [']']
  | obj [] => ['{', '}']
  | obj ((k, j) :: fs) =>
    '{' :: newline (level + 1) ++ renderString (k.getD "") ++ [':', ' '] ++
      renderAt (level + 1) j ++ renderFields (level + 1) fs ++ newline level ++ ['}']

/-- The items after the first. -/
def renderItems (level : Nat) : List Json → List Char
  | [] => []
  | j :: js => ',' :: newline level ++ renderAt level j ++ renderItems level js

/-- The fields after the first. -/
def renderFields (level : Nat) : List (Option String × Json) → List Char
  | [] => []
  | (k, j) :: fs =>
    ',' :: newline level ++ renderString (k.getD "") ++ [':', ' '] ++ renderAt level j ++
      renderFields level fs

end

/-- The text of a value. -/
def render (j : Json) : String :=
  String.ofList (renderAt 0 j)

end Json

end Naskah
