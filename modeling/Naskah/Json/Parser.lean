/-
  Reading JSON: the tokens of a text are taken one by one, and the lists and objects that are
  still open stand on a stack.

  Taken for granted of `from_str` of the package `serde_json`: a text is one value with blanks
  around it, there is no comma behind the last item or field, and what is skipped may be nested to
  any depth.  (Its limit of 128 levels is for values that are kept, and programs have fewer.)
-/
import Naskah.Json.Token

namespace Naskah.Json

/-- A list or object that is still open, with what it holds so far in reverse. -/
inductive Open
  | arr (items : List Json)
  /-- An object before the next name, or after it. -/
  | obj (fields : List (Option String × Json)) (name : Option (Option String))

/-- What may come next. -/
inductive Next
  | value
  /-- A value, or the end of an empty list. -/
  | item
  | name
  /-- A name, or the end of an empty object. -/
  | field
  | colon
  /-- A comma, or the end of the innermost list or object. -/
  | more
  /-- Nothing: the value is complete. -/
  | nothing (j : Json)

/-- A value that is being read. -/
structure Parser where
  stack : List Open := []
  next : Next := .value

namespace Parser

/-- Puts a complete value where it belongs. -/
def give? (stack : List Open) (j : Json) : Option Parser :=
  match stack with
  | [] => some ⟨[], .nothing j⟩
  | .arr js :: st => some ⟨.arr (j :: js) :: st, .more⟩
  | .obj fs (some k) :: st => some ⟨.obj ((k, j) :: fs) none :: st, .more⟩
  | .obj _ none :: _ => none

/-- Takes the first token of a value. -/
def begin? (stack : List Open) (t : Tok) : Option Parser :=
  match t with
  | .null => give? stack .null
  | .bool b => give? stack (.bool b)
  | .num n => give? stack (.num n)
  | .str s => give? stack (.str s)
  | .openArr => some ⟨.arr [] :: stack, .item⟩
  | .openObj => some ⟨.obj [] none :: stack, .field⟩
  | _ => none

/-- Closes the innermost list or object. -/
def end? (stack : List Open) (t : Tok) : Option Parser :=
  match stack, t with
  | .arr js :: st, .closeArr => give? st (.arr js.reverse)
  | .obj fs none :: st, .closeObj => give? st (.obj fs.reverse)
  | _, _ => none

/-- Takes the name of a field. -/
def name? (stack : List Open) (t : Tok) : Option Parser :=
  match stack, t with
  | .obj fs none :: st, .str k => some ⟨.obj fs (some k) :: st, .colon⟩
  | _, _ => none

/-- Takes a token. -/
def step? (p : Parser) (t : Tok) : Option Parser :=
  match p.next with
  | .value => begin? p.stack t
  | .item => (end? p.stack t).orElse fun _ => begin? p.stack t
  | .name => name? p.stack t
  | .field => (end? p.stack t).orElse fun _ => name? p.stack t
  | .colon =>
    match t with
    | .colon => some ⟨p.stack, .value⟩
    | _ => none
  | .more =>
    match p.stack, t with
    | .arr _ :: _, .comma => some ⟨p.stack, .value⟩
    | .obj .. :: _, .comma => some ⟨p.stack, .name⟩
    | stack, t => end? stack t
  | .nothing _ => none

end Parser

/-- The value that a text denotes. -/
def parse? (s : String) : Option Json := do
  let ts ← tokens? s.toList
  let p ← ts.foldlM Parser.step? ({} : Parser)
  match p.next with
  | .nothing j => some j
  | _ => none

end Naskah.Json
