/-
  Round brackets: parameters, guards, arguments and groups.
-/
import Naskah.Compile.Desk

namespace Naskah.Desk

open Expression (illegal)

/-- The name in front of a bracket that begins the parameters of a function. -/
def definedName? (d : Desk) : Option String :=
  match d.run.tokens with
  | [.keyword .function, .identifier name] => if d.atStart then some name.text else none
  | _ => none

/-- What a bracket encloses after a keyword that a block belongs to.  The keyword must be the
    first token of a statement, or come directly after the one that continues a chain. -/
def headerKind (d : Desk) (k : Keyword) (line : UInt32) : Except Diagnostic RoundKind :=
  let isFurther : Bool := d.run.tokens = [.keyword .otherwise, .keyword .cond]
  if !d.atStart || (d.run.tokens.length != 1 && !isFurther) then illegal (.keyword k) line
  else
    match k with
    | .entry => if d.blocks.isEmpty then .ok .entry else refuse .entryNotOutermost line
    | .cond => .ok (.guard (if isFurther then .further else .first))
    | .loop => .ok (.guard .loop)
    | .otherwise => refuse (.expected "\x7b" "(") line
    | k => refuse (.unsupported (Token.keyword k).text) line

/-- What a bracket encloses. -/
def roundKind (d : Desk) (line : UInt32) : Except Diagnostic RoundKind :=
  let head := d.atStart && d.run.tokens.length == 1
  match d.definedName?, d.run.tokens.getLast? with
  | some name, _ => .ok (.definition name)
  | none, some (.keyword k) =>
    if k.opensBlock then d.headerKind k line
    else .ok (if k = .print then .call head else .group)
  | none, some (.identifier name) => do
    d.functions.check name.text name.line
    return .call head
  | none, _ => .ok .group

/-- Declares the function whose parameters a bracket encloses. -/
def announce (d : Desk) (kind : RoundKind) (line : UInt32) : Except Diagnostic Desk :=
  match kind with
  | .definition name => return { d with functions := ← d.functions.declare name line }
  | .entry => return { d with functions := ← d.functions.declare entryName line, hasEntry := true }
  | .guard _ | .call _ | .group => .ok d

/-- Reads an opening bracket. -/
def openRound (d : Desk) (line : UInt32) : Except Diagnostic Desk := do
  let kind ← d.roundKind line
  let d ← d.announce kind line
  let round : Round := ⟨kind, d.run.tokens.length⟩
  return { d with
    nesting := .round :: d.nesting
    run := ⟨d.run.tokens ++ [.bracket .openRound], round :: d.run.rounds⟩ }

/-- A parameter with or without a type. -/
def param (line : UInt32) : List Token → Except Diagnostic Param
  | [.identifier name] => .ok ⟨name.text, .any⟩
  | [.identifier name, .punctuation .colon, .keyword (.type t)] => .ok ⟨name.text, t⟩
  | .identifier _ :: .punctuation .colon :: other :: _ => illegal other line
  | .identifier _ :: other :: _ => illegal other line
  | other :: _ => illegal other line
  | [] => illegal (.punctuation .comma) line

/-- Ends what a bracket encloses.  After a header the curly bracket of the block must follow, and
    after a call that is a statement a semicolon. -/
def endRound (d : Desk) (round : Round) (c : Cursor) : Except Diagnostic Desk :=
  let inner := d.run.tokens.drop (round.start + 1)
  match round.kind with
  | .group | .call false => .ok (d.push (.bracket .closeRound))
  | .call true => do
    c.search ";"
    return d.push (.bracket .closeRound)
  | .definition name => do
    let params ← (Expression.splitCommas inner).mapM (param c.line)
    c.search "\x7b"
    return { d.clear with header := some (.function name params c.line) }
  | .entry => do
    if inner ≠ [] then refuse .entryWithParams c.line
    c.search "\x7b"
    return { d.clear with header := some (.entry c.line) }
  | .guard kind => do
    let guard ← d.expression c.line inner
    c.search "\x7b"
    return { d.clear with header := some (.guarded kind guard c.line) }

/-- Reads a closing bracket. -/
def closeRound (d : Desk) (c : Cursor) : Except Diagnostic Desk :=
  match d.nesting, d.run.rounds with
  | .round :: nesting, round :: rounds =>
    { d with nesting, run := { d.run with rounds } }.endRound round c
  | .round :: _, [] => broken .roundWithoutFrame
  | _, _ => refuse (.unexpected ")") c.line

end Naskah.Desk
