/-
  Curly brackets: the bodies of blocks, and the ends of holes.
-/
import Naskah.Compile.Strings

namespace Naskah.Desk

/-- Adds a clause to the innermost block, which must be a chain that goes on. -/
def pushClause (d : Desk) (kind : ClauseKind) (guard : Option (List Asm)) (line : UInt32) :
    Except Diagnostic Desk :=
  match d.chained? with
  | none => refuse (.unexpected "selainnya") line
  | some (c, blocks) => do
    let c ← c.pushClause kind guard line
    return { d with blocks := .chain c :: blocks }

/-- Begins a function. -/
def beginFunction (d : Desk) (kind : FunctionKind) (params : List Param) (line : UInt32) :
    Except Diagnostic Desk := do
  let (b, labels) ← FunctionBlock.begin kind params line d.labels
  return { d.pushBlock (.function b) with labels }

/-- Begins the block of a header. -/
def beginBlock (d : Desk) : Header → Except Diagnostic Desk
  | .function name params line => d.beginFunction (.named name) params line
  | .entry line => d.beginFunction .entry [] line
  | .guarded .first guard line => .ok (d.pushBlock (.chain (.start guard line)))
  | .guarded .further guard line => d.pushClause .further (some guard) line
  | .guarded .loop guard line =>
    let (b, labels) := LoopBlock.begin guard line d.labels
    .ok { d.pushBlock (.loop b) with labels }

/-- Begins the last clause of a chain, which has no header. -/
def beginLastClause (d : Desk) (line : UInt32) : Except Diagnostic Desk :=
  if d.run.tokens = [.keyword .otherwise] ∧ d.outer.isEmpty then
    d.clear.pushClause .last none line
  else refuse (.unexpected "\x7b") line

/-- Reads an opening bracket. -/
def openCurly (d : Desk) (line : UInt32) : Except Diagnostic Desk := do
  let d ← match d.header with
    | some header => beginBlock { d with header := none } header
    | none => d.beginLastClause line
  return { d with nesting := .curly :: d.nesting }

/-- Ends the innermost block.  A chain goes on if the word that continues it comes next. -/
def endBlock (d : Desk) (c : Cursor) : Except Diagnostic Desk :=
  match d.blocks with
  | [] => broken .curlyWithoutBuilder
  | .function b :: blocks => do
    let (code, chunks) ← b.finish d.chunks
    emit { d with blocks, chunks } code
  | .loop b :: blocks => { d with blocks }.emit b.finish
  | .chain chain :: blocks =>
    let chain := chain.closeClause (c.nextWordIs "selainnya")
    if chain.state = .chained then .ok { d with blocks := .chain chain :: blocks }
    else do
      let (code, _, labels) ← chain.emit d.labels
      emit { d with blocks, labels } code

/-- Reads a closing bracket. -/
def closeCurly (d : Desk) (c : Cursor) : Except Diagnostic Desk :=
  match d.nesting with
  | .curly :: nesting =>
    if d.nesting.inHole then d.closeHole c.line
    else if d.run.tokens ≠ [] then refuse (.expected ";" "\x7d") c.line
    else { d with nesting }.endBlock c
  | _ => refuse (.unexpected "\x7d") c.line

end Naskah.Desk
