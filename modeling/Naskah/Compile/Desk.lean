/-
  The desk: all that a compilation holds between two tokens.  A source is compiled in one pass.
  Tokens are collected in a run until a bracket, a quote or a semicolon says what they are; the
  code they stand for goes to the innermost block that is under construction.

  The hole of a string has a run of its own, and a nameless function under construction.
-/
import Naskah.Block
import Naskah.Expression.Compile
import Naskah.Nesting
import Naskah.Token.Scan

namespace Naskah

/-- What a guard in round brackets belongs to. -/
inductive GuardKind
  | first
  | further
  | loop
  deriving DecidableEq

/-- What round brackets enclose. -/
inductive RoundKind
  /-- The parameters of a function. -/
  | definition (name : String)
  /-- The parameters of the entry point. -/
  | entry
  | guard (kind : GuardKind)
  /-- Arguments; a call at the head is a statement. -/
  | call (head : Bool)
  | group
  deriving DecidableEq

/-- An open round bracket and the number of tokens before it. -/
structure Round where
  kind : RoundKind
  start : Nat

/-- The tokens of a statement or a hole so far, and its open round brackets, the innermost
    first. -/
structure Run where
  tokens : List Token := []
  rounds : List Round := []

/-- The head of a block, which has been read; its curly bracket comes next. -/
inductive Header
  | function (name : String) (params : List Param) (line : UInt32)
  | entry (line : UInt32)
  | guarded (kind : GuardKind) (guard : List Asm) (line : UInt32)

/-- A string that has not been closed. -/
structure Draft where
  quote : Quote
  parts : List StringPart := []
  line : UInt32

/-- The state of a compilation. -/
structure Desk where
  nesting : Nesting := []
  labels : LabelSupply := {}
  /-- The names declared outside of functions. -/
  globals : Names := {}
  functions : Functions := {}
  /-- The blocks under construction, the innermost first. -/
  blocks : List Block := []
  header : Option Header := none
  run : Run := {}
  /-- The runs around the current one, the innermost first. -/
  outer : List Run := []
  /-- The open strings, the innermost first. -/
  strings : List Draft := []
  /-- The code of the module. -/
  code : List Asm := []
  chunks : List Chunk := []
  hasEntry : Bool := false

namespace Desk

/-- Adds a token to the current run. -/
def push (d : Desk) (t : Token) : Desk :=
  { d with run := { d.run with tokens := d.run.tokens ++ [t] } }

/-- Drops the tokens of the current run. -/
def clear (d : Desk) : Desk :=
  { d with run := { d.run with tokens := [] } }

/-- Whether a statement is being read, and no bracket of it is open. -/
def atStart (d : Desk) : Bool :=
  d.outer.isEmpty && d.run.rounds.isEmpty

/-- Puts a block inside the ones under construction. -/
def pushBlock (d : Desk) (b : Block) : Desk :=
  { d with blocks := b :: d.blocks }

/-- The chain that another clause can be added to, and the blocks around it. -/
def chained? (d : Desk) : Option (Chain × List Block) :=
  match d.blocks with
  | .chain c :: blocks => if c.state = .chained then some (c, blocks) else none
  | _ => none

/-- Adds code to the innermost block, or to the module if there is none. -/
def emit (d : Desk) (code : List Asm) : Except Diagnostic Desk :=
  match d.blocks with
  | [] => .ok { d with code := d.code ++ code }
  | .chain c :: blocks =>
    if c.state ≠ .filling then broken (.addedToChain c.state)
    else .ok { d with blocks := .chain (c.add code) :: blocks }
  | b :: blocks => .ok { d with blocks := b.add code :: blocks }

/-- The names that can be used: those of the innermost function with a name, or the global
    ones. -/
def names (d : Desk) : Names :=
  (d.blocks.findSome? Block.names?).getD d.globals

/-- Replaces the names of the innermost function with a name. -/
def replaceNames? (names : Names) : List Block → Option (List Block)
  | [] => none
  | .function b :: blocks =>
    if b.isAnonymous then (replaceNames? names blocks).map (.function b :: ·)
    else some (.function { b with names } :: blocks)
  | b :: blocks => (replaceNames? names blocks).map (b :: ·)

/-- Replaces the names that can be used. -/
def setNames (d : Desk) (names : Names) : Desk :=
  match replaceNames? names d.blocks with
  | some blocks => { d with blocks }
  | none => { d with globals := names }

/-- Whether a function with a name is under construction. -/
def inFunction (d : Desk) : Bool :=
  d.blocks.any fun b => b.names?.isSome

/-- The innermost loop of the innermost function. -/
def loop? : List Block → Option LoopBlock
  | [] | .function _ :: _ => none
  | .loop b :: _ => some b
  | .chain _ :: blocks => loop? blocks

/-- The code of an expression that ends on a line. -/
def expression (d : Desk) (line : UInt32) (tokens : List Token) : Except Diagnostic (List Asm) :=
  Expression.compile (Scope.mk d.names d.functions) line tokens

end Desk

end Naskah
