/-
  One step of the machine, and runs of bounded length.

  A step that fails leaves the machine as the failing instruction left it: the instruction counts
  as fetched, and the operands it has taken are gone.  A later run goes on from there.
-/
import Naskah.Machine.Arithmetic
import Naskah.Machine.State

namespace Naskah

/-- Computations on the machine that may fail and keep the state when they do. -/
abbrev MachineM := EStateM Fault Machine

namespace Machine

/-- An outcome that does not touch the machine. -/
def lift {α : Type} : Except Fault α → MachineM α
  | .ok a => pure a
  | .error e => throw e

def push (v : Value) : MachineM Unit :=
  modify fun m => { m with stack := v :: m.stack }

/-- Takes the topmost operand. -/
def pop : MachineM Value := do
  match (← get).stack with
  | [] => throw .stackUnderflow
  | v :: rest =>
    modify fun m => { m with stack := rest }
    return v

/-- Takes the `n` topmost operands, all or none, in the order they were pushed. -/
def popMany (n : Nat) : MachineM (List Value) := do
  let stack := (← get).stack
  if stack.length < n then throw .stackUnderflow
  else
    modify fun m => { m with stack := stack.drop n }
    return (stack.take n).reverse

/-- Takes two operands and pushes the outcome of an operation.  The right operand is checked
    before the left one is taken. -/
def binary (op : Operation) : MachineM Unit := do
  let r ← pop
  lift (op.checkRight r)
  let l ← pop
  push (← lift (op.apply l r))

/-- Takes two operands and pushes what a comparison says about them. -/
def compare (c : Comparison) : MachineM Unit := do
  let r ← pop
  let l ← pop
  push (.bool (← lift (c.apply l r)))

/-- Continues at an offset of the running code; the end of the code is one. -/
def jump (p : Program) (target : Nat) : MachineM Unit := do
  let code ← lift ((← get).current.code p)
  if code.length < target then throw (.jumpOutOfBounds target)
  else modify fun m => { m with current := { m.current with ip := target } }

/-- Prints a line. -/
def print (line : String) : MachineM Unit :=
  modify fun m => { m with output := m.output.push line }

/-- Opens a frame for a function.  The code of a function begins by storing its parameters in the
    order of their declaration, so the first argument goes on top.  The function knows itself. -/
def enter (chunk : Nat) (name : String) (args : List Value) : MachineM Unit :=
  modify fun m =>
    { m with
      current :=
        { chunk := some chunk, locals := [(name, .function chunk name)], base := m.stack.length }
      callers := m.current :: m.callers
      stack := args ++ m.stack }

/-- Takes `n` arguments and the callee below them, and calls it. -/
def call (p : Program) (n : Nat) : MachineM Unit := do
  let args ← popMany n
  match ← pop with
  | .builtin .print =>
    print (String.intercalate " " (args.map Value.text))
    push .null
  | .function chunk name =>
    match p.chunks[chunk]? with
    | none => throw (.invalidChunk chunk)
    | some c =>
      if c.params.length ≠ n then throw (.invalidCallArity name c.params.length n)
      else if maxFrames ≤ (← get).frames.length then throw .callDepthExceeded
      else enter chunk name args
  | v => throw (.notCallable v.kind)

/-- Takes a chunk and pushes the function of that name. -/
def makeFunction (p : Program) (name : String) : MachineM Unit := do
  match ← pop with
  | .chunk i =>
    match p.chunks[i]? with
    | none => throw (.invalidChunk i)
    | some _ => push (.function i name)
  | _ => throw (.typeMismatch .chunk)

/-- Closes the running frame and hands its value to the caller.  The module has no caller: its
    value is the result of the run. -/
def leave (v : Value) : MachineM (Option Value) := do
  let m ← get
  match m.callers with
  | [] => return some v
  | f :: fs =>
    let kept := m.stack.drop (m.stack.length - m.current.base)
    set { m with current := f, callers := fs, stack := v :: kept }
    return none

/-- Executes an instruction that has been fetched. -/
def execute (p : Program) : Instruction → MachineM (Option Value)
  | .loadConst v => do push v; return none
  | .loadName name => do push (← lift ((← get).lookup name)); return none
  | .storeName name => do
    let v ← pop
    modify fun m => { m with current := { m.current with locals := m.current.locals.set name v } }
    return none
  | .binary op => do binary op; return none
  | .compare c => do compare c; return none
  | .jumpIfFalse target => do
    if !(← pop).isTruthy then jump p target
    return none
  | .jump target => do jump p target; return none
  | .buildString n => do
    push (.string (String.join ((← popMany n).map Value.text)))
    return none
  | .call n => do call p n; return none
  | .makeFunction name => do makeFunction p name; return none
  | .ret => do leave (← pop)
  | .pop => do let _ ← pop; return none

/-- One step: fetches an instruction and executes it.  Past the end of its code a frame returns
    null.  The answer is the result of the run, once there is one. -/
def step (p : Program) : MachineM (Option Value) := do
  let frame := (← get).current
  let code ← lift (frame.code p)
  match code[frame.ip]? with
  | none => leave .null
  | some i =>
    modify fun m => { m with current := { m.current with ip := m.current.ip + 1 } }
    execute p i

/-- At most `n` steps; there is no answer if they do not end the run. -/
def runFor (p : Program) : Nat → MachineM (Option Value)
  | 0 => pure none
  | n + 1 => do
    match ← step p with
    | some v => return some v
    | none => runFor p n

end Machine

end Naskah
