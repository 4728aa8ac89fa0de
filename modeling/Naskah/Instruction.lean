/-
  Instructions of the stack machine.  They are the same before and after labels are resolved; only
  what a jump points to differs, so the type of jump targets is a parameter.

  Offsets, places of chunks and counts of parts are natural numbers here.  They stand for numbers of
  32 bits, so that what is said of code is said of code with fewer than `2 ^ 32` instructions,
  chunks and parts of a text.  A stored program is held to that size.
-/
import Naskah.Value

namespace Naskah

/-- Operations on two operands. -/
inductive Operation
  | add
  | sub
  | mul
  | div
  | mod
  | pow
  | bitAnd
  | bitOr
  | shl
  | shr
  | and
  | or
  deriving DecidableEq

namespace Operation

def all : List Operation :=
  [add, sub, mul, div, mod, pow, bitAnd, bitOr, shl, shr, and, or]

/-- The sign that stands for the operation in source text and listings. -/
def symbol : Operation → String
  | add => "+"
  | sub => "-"
  | mul => "*"
  | div => "/"
  | mod => "%"
  | pow => "**"
  | bitAnd => "&"
  | bitOr => "|"
  | shl => "<<"
  | shr => ">>"
  | and => "&&"
  | or => "||"

/-- The name of the operation in stored programs. -/
def name : Operation → String
  | add => "Add"
  | sub => "Sub"
  | mul => "Mul"
  | div => "Div"
  | mod => "Mod"
  | pow => "Pow"
  | bitAnd => "BitAnd"
  | bitOr => "BitOr"
  | shl => "Shl"
  | shr => "Shr"
  | and => "And"
  | or => "Or"

def ofName? (s : String) : Option Operation :=
  all.find? fun op => op.name = s

end Operation

/-- Comparisons of two operands. -/
inductive Comparison
  | eq
  | ne
  | lt
  | gt
  | le
  | ge
  deriving DecidableEq

namespace Comparison

def all : List Comparison :=
  [eq, ne, lt, gt, le, ge]

/-- The sign that stands for the comparison in source text and listings. -/
def symbol : Comparison → String
  | eq => "=="
  | ne => "!="
  | lt => "<"
  | gt => ">"
  | le => "<="
  | ge => ">="

/-- The name of the comparison in stored programs. -/
def name : Comparison → String
  | eq => "Eq"
  | ne => "Ne"
  | lt => "Lt"
  | gt => "Gt"
  | le => "Le"
  | ge => "Ge"

def ofName? (s : String) : Option Comparison :=
  all.find? fun c => c.name = s

end Comparison

/-- An instruction whose jumps point to a `τ`. -/
inductive Instr (τ : Type)
  | loadConst (v : Value)
  | loadName (name : String)
  | storeName (name : String)
  | binary (op : Operation)
  | compare (c : Comparison)
  /-- Takes a value and jumps if it counts as false. -/
  | jumpIfFalse (target : τ)
  | jump (target : τ)
  /-- Joins the texts of the topmost values.  The count stands for a number of 32 bits. -/
  | buildString (count : Nat)
  /-- Calls a function.  The count of arguments stands for a number of 8 bits. -/
  | call (count : Nat)
  | makeFunction (name : String)
  | ret
  | pop
  deriving DecidableEq

/-- An instruction whose jumps are offsets into the code that holds it. -/
abbrev Instruction := Instr Nat

namespace Instr

/-- Where the instruction may jump to. -/
def target? {τ : Type} : Instr τ → Option τ
  | jumpIfFalse t | jump t => some t
  | _ => none

/-- The same instruction with the jump target sent through `f`. -/
def relabel {τ σ : Type} (f : τ → σ) : Instr τ → Instr σ
  | loadConst v => loadConst v
  | loadName n => loadName n
  | storeName n => storeName n
  | binary op => binary op
  | compare c => compare c
  | jumpIfFalse t => jumpIfFalse (f t)
  | jump t => jump (f t)
  | buildString n => buildString n
  | call n => call n
  | makeFunction n => makeFunction n
  | ret => ret
  | pop => pop

/-- The name of the instruction in listings. -/
def mnemonic {τ : Type} : Instr τ → String
  | loadConst _ => "load_const"
  | loadName _ => "load_name"
  | storeName _ => "store_name"
  | binary _ => "binary_op"
  | compare _ => "compare_op"
  | jumpIfFalse _ => "pop_jump_if_false"
  | jump _ => "jump"
  | buildString _ => "build_string"
  | call _ => "call"
  | makeFunction _ => "make_function"
  | ret => "return"
  | pop => "pop"

end Instr

end Naskah
