/-
  Conditions under construction: a chain of clauses of which at most one runs.
-/
import Naskah.Diagnostic

namespace Naskah

/-- A clause; only the last one of a chain may have no guard. -/
structure Clause where
  kind : ClauseKind
  guard : Option (List Asm)
  body : List Asm := []
  line : UInt32

/-- A chain of clauses, the latest first. -/
structure Chain where
  clauses : List Clause
  state : ChainState

namespace Chain

/-- Begins a chain with its first clause. -/
def start (guard : List Asm) (line : UInt32) : Chain :=
  ⟨[{ kind := .first, guard := some guard, line }], .filling⟩

/-- Adds code to the body of the latest clause, if there is one. -/
def add (c : Chain) (code : List Asm) : Chain :=
  match c.clauses with
  | [] => c
  | clause :: clauses => { c with clauses := { clause with body := clause.body ++ code } :: clauses }

/-- Closes the latest clause.  The chain goes on only if another clause follows and can follow. -/
def closeClause (c : Chain) (follows : Bool) : Chain :=
  let canFollow : Bool := match c.clauses with
    | clause :: _ => clause.kind ≠ .last
    | [] => true
  { c with state := if follows && canFollow then .chained else .resolved }

/-- Adds a further clause or the last one to a chain that goes on. -/
def pushClause (c : Chain) (kind : ClauseKind) (guard : Option (List Asm)) (line : UInt32) :
    Except Diagnostic Chain :=
  if c.state ≠ .chained then refuse (.unexpected "selainnya") line
  else
    match kind, guard with
    | .last, none | .further, some _ => .ok ⟨{ kind, guard, line } :: c.clauses, .filling⟩
    | kind, _ => broken (.mismatchedGuard kind)

/-- Puts a clause in front of the code of the clauses after it. -/
def emitClause (exit : Label) (clause : Clause) (rest : List Asm) (labels : LabelSupply) :
    List Asm × LabelSupply :=
  match clause.guard with
  | none => (clause.body, labels)
  | some guard =>
    let (next, labels) := labels.fresh
    (guard ++ [.op (.jumpIfFalse next)] ++ clause.body ++ [.op (.jump exit), .mark next] ++ rest,
      labels)

/-- The code of clauses, the latest first, in front of the code of the clauses after them. -/
def emitClauses (exit : Label) : List Clause → List Asm → LabelSupply → List Asm × LabelSupply
  | [], rest, labels => (rest, labels)
  | clause :: clauses, rest, labels =>
    let (rest, labels) := emitClause exit clause rest labels
    emitClauses exit clauses rest labels

/-- Takes the code of a chain that is complete. -/
def emit (c : Chain) (labels : LabelSupply) :
    Except Diagnostic (List Asm × Chain × LabelSupply) :=
  if c.state ≠ .resolved then broken (.chainEmitted c.state)
  else
    let (exit, labels) := labels.fresh
    let (code, labels) := emitClauses exit c.clauses [] labels
    .ok (code ++ [.mark exit], ⟨[], .emitted⟩, labels)

end Chain

end Naskah
