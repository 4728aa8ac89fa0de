/-
  The meaning of scripts: an interpreter that follows the tree.

  Operands, callee and arguments are evaluated from left to right, and both sides of every operator.
  A name is looked up in the frame at hand, then in the module, then among the builtins.  A call has
  a frame of its own, with the name of the function and its parameters; a frame binds names in itself
  only.  Loops and calls inside of calls are cut off after a number of rounds, so that every run
  ends; a run that was not cut off has an ending (`Script.ending?`).
-/
import Naskah.Machine.Arithmetic
import Naskah.Machine.State
import Naskah.Proofs.Tree.Syntax

namespace Naskah.Tree

/-- What a run changes: the names bound in the frame at hand, and the lines printed so far. -/
structure Store where
  env : Env
  output : Array String := #[]

/-- Why a run has no result. -/
inductive Halt
  | fault (e : Fault)
  /-- A loop or a call has been cut off. -/
  | cut

/-- Runs that may fail and keep the store when they do. -/
abbrev Exec := EStateM Halt Store

/-- How a statement ends. -/
inductive Flow
  | next
  | stop
  | skip
  | result (v : Value)

/-- The value of a body that ends. -/
def Flow.value : Flow → Value
  | result v => v
  | next | stop | skip => .null

/-- What the meaning of an expression or a statement depends on. -/
structure World where
  /-- The names of the module, if the frame at hand is not the module. -/
  outer : Option Env
  call : Value → List Value → Exec Value
  /-- The number that stands for a function. -/
  number : String → Nat
  /-- The most rounds of a loop. -/
  rounds : Nat

namespace Exec

/-- An outcome that does not depend on the store. -/
def lift {α : Type} : Except Fault α → Exec α
  | .ok a => pure a
  | .error e => throw (.fault e)

def assign (x : String) (v : Value) : Exec Unit :=
  modify fun s => { s with env := s.env.set x v }

def print (line : String) : Exec Unit :=
  modify fun s => { s with output := s.output.push line }

/-- Runs in a new frame; afterwards the frame at hand is as it was. -/
def inFrame {α : Type} (env : Env) (x : Exec α) : Exec α := fun s =>
  match x ⟨env, s.output⟩ with
  | .ok a s' => .ok a ⟨s.env, s'.output⟩
  | .error e s' => .error e ⟨s.env, s'.output⟩

/-- One thing after the other, unless the first one leads elsewhere. -/
def andThen (x y : Exec Flow) : Exec Flow := do
  match ← x with
  | .next => y
  | flow => return flow

/-- A loop of at most `n` rounds. -/
def iterate (guard : Exec Value) (body : Exec Flow) : Nat → Exec Flow
  | 0 => throw .cut
  | n + 1 => do
    if (← guard).isTruthy then
      match ← body with
      | .next | .skip => iterate guard body n
      | .stop => return .next
      | .result v => return .result v
    else return .next

end Exec

/-! ## Expressions -/

/-- What a name means in a frame. -/
def World.lookup (w : World) (env : Env) (x : String) : Except Fault Value :=
  match (env.get? x).or ((w.outer.getD env).get? x) with
  | some v => .ok v
  | none => if x = Builtin.print.name then .ok (.builtin .print) else .error (.unboundName x)

def World.load (w : World) (x : String) : Exec Value := do
  Exec.lift (w.lookup (← get).env x)

/-- The outcome of an operator. -/
def Sign.apply : Sign → Value → Value → Except Fault Value
  | binary op, l, r => op.apply l r
  | compare c, l, r => (c.apply l r).map .bool
  | equal, l, r => (Comparison.eq.apply l r).map .bool
  | notEqual, l, r => (Comparison.ne.apply l r).map .bool

mutual

/-- The value of an expression. -/
def Expr.eval (w : World) : Expr → Exec Value
  | .int n => return .int (Int64.ofInt n)
  | .float w => return .float (fractionValue w)
  | .bool b => return .bool b
  | .string _ t => return .string (← t.eval w)
  | .name x => w.load x
  | .call f args => do
    let callee ← w.load f
    w.call callee (← evalAll w args)
  | .print args => do
    let callee ← w.load Builtin.print.name
    let values ← evalAll w args
    w.call callee [.string (String.join (values.map Value.text))]
  | .apply o l r => do
    let a ← l.eval w
    let b ← r.eval w
    Exec.lift (o.apply a b)

/-- The text of a string, its holes filled. -/
def Template.eval (w : World) : Template → Exec String
  | .last s => return s
  | .hole s e rest => do
    let v ← e.eval w
    return s ++ v.text ++ (← rest.eval w)

def evalAll (w : World) : List Expr → Exec (List Value)
  | [] => return []
  | e :: es => do
    let v ← e.eval w
    return v :: (← evalAll w es)

end

/-- The value of an expression that may be left out. -/
def evalIfAny (w : World) : Option Expr → Exec Value
  | none => return .null
  | some e => e.eval w

/-! ## Statements -/

def Simple.exec (w : World) : Simple → Exec Flow
  | .var b value => do
    Exec.assign b.name (← evalIfAny w value)
    return .next
  | .const b value => do
    Exec.assign b.name (← value.eval w)
    return .next
  | .assign x value => do
    Exec.assign x (← value.eval w)
    return .next
  | .compound x op value => do
    let old ← w.load x
    let v ← value.eval w
    Exec.assign x (← Exec.lift (op.apply old v))
    return .next
  | .step x up => do
    let old ← w.load x
    let op := if up then Operation.add else .sub
    Exec.assign x (← Exec.lift (op.apply old (.int 1)))
    return .next
  | .result value => return .result (← evalIfAny w value)
  | .expr e => do
    let _ ← e.eval w
    return .next

mutual

def Stmt.exec (w : World) : Stmt → Exec Flow
  | .function f _ _ => do
    Exec.assign f (.function (w.number f) f)
    return .next
  | .simple s => s.exec w
  | .loop guard body => Exec.iterate (guard.eval w) (execAll w body) w.rounds
  | .stop => return .stop
  | .skip => return .skip
  | .cond guard body rest => do
    if (← guard.eval w).isTruthy then execAll w body else rest.exec w

def Rest.exec (w : World) : Rest → Exec Flow
  | .done => return .next
  | .last body => execAll w body
  | .further guard body rest => do
    if (← guard.eval w).isTruthy then execAll w body else rest.exec w

def execAll (w : World) : List Stmt → Exec Flow
  | [] => return .next
  | st :: body => Exec.andThen (st.exec w) (execAll w body)

end

/-! ## Functions -/

structure Definition where
  name : String
  params : List Binder
  body : List Stmt

mutual

/-- The functions of a statement; those inside of a function come before it. -/
def Stmt.definitions : Stmt → List Definition
  | .function f params body => definitionsOf body ++ [⟨f, params, body⟩]
  | .loop _ body => definitionsOf body
  | .cond _ body rest => definitionsOf body ++ rest.definitions
  | .simple _ | .stop | .skip => []

def Rest.definitions : Rest → List Definition
  | .done => []
  | .last body => definitionsOf body
  | .further _ body rest => definitionsOf body ++ rest.definitions

def definitionsOf : List Stmt → List Definition
  | [] => []
  | st :: body => st.definitions ++ definitionsOf body

end

/-- The place of a function among the functions of a script. -/
def numberOf (defs : List Definition) (f : String) : Nat :=
  defs.findIdx fun d => d.name = f

/-- Binds parameters to arguments, one after the other. -/
def bindArgs : Env → List Binder → List Value → Env
  | env, b :: params, v :: args => bindArgs (env.set b.name v) params args
  | env, _, _ => env

/-- Calls a value when `depth` frames are alive, with at most `n` calls inside of each other. -/
def callAt (defs : List Definition) : Nat → Nat → Option Env → Value → List Value → Exec Value
  | 0, _, _, _, _ => throw .cut
  | n + 1, depth, outer, callee, args =>
    match callee with
    | .builtin .print => do
      Exec.print (String.intercalate " " (args.map Value.text))
      return .null
    | .function i name =>
      match defs[i]? with
      | none => throw (.fault (.invalidChunk i))
      | some d =>
        if d.params.length ≠ args.length then
          throw (.fault (.invalidCallArity name d.params.length args.length))
        else if maxFrames ≤ depth then throw (.fault .callDepthExceeded)
        else do
          let names := outer.getD (← get).env
          let w : World := ⟨some names, callAt defs n (depth + 1) (some names), numberOf defs, n⟩
          let env := bindArgs [(name, .function i name)] d.params args
          return (← Exec.inFrame env (execAll w d.body)).value
    | v => throw (.fault (.notCallable v.kind))

/-! ## Scripts -/

/-- The body of an entry point runs if the module is the main one. -/
def execEntry (w : World) (body : List Stmt) : Exec Flow := do
  let name ← w.load "__name__"
  if ← Exec.lift (Comparison.eq.apply name (.string "__main__")) then execAll w body else return .next

/-- What is left of a run: its value or the fault that ended it, the printed lines and the names of
    the module. -/
structure Ending where
  result : Except Fault Value
  output : Array String
  globals : Env

namespace Script

def definitions (s : Script) : List Definition :=
  definitionsOf s.before ++ definitionsOf s.entry ++ definitionsOf s.after

/-- The module: loops and calls are cut off after `n` rounds. -/
def world (s : Script) (n : Nat) : World :=
  ⟨none, callAt s.definitions n 1 none, numberOf s.definitions, n⟩

/-- Runs a script: its outermost statements, and the entry point in its place. -/
def exec (s : Script) (n : Nat) : Exec Flow :=
  Exec.andThen (execAll (s.world n) s.before)
    (Exec.andThen (execEntry (s.world n) s.entry) (execAll (s.world n) s.after))

/-- The ending of a run that was not cut off. -/
def ending? (s : Script) (n : Nat) : Option Ending :=
  match s.exec n ⟨[("__name__", .string "__main__")], #[]⟩ with
  | .ok flow st => some ⟨.ok flow.value, st.output, st.env⟩
  | .error (.fault e) st => some ⟨.error e, st.output, st.env⟩
  | .error .cut _ => none

end Script

end Naskah.Tree
