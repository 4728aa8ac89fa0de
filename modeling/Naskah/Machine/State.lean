/-
  The state of the machine: a stack of operands, the frame that is running, the frames that wait
  for it, and the lines printed so far.
-/
import Naskah.Program
import Naskah.Machine.Fault

namespace Naskah

/-- The names bound in a frame. -/
abbrev Env := List (String × Value)

namespace Env

def get? (e : Env) (name : String) : Option Value :=
  e.lookup name

/-- Binds a name; an older binding of it is replaced. -/
def set : Env → String → Value → Env
  | [], name, v => [(name, v)]
  | (n, w) :: e, name, v => if n = name then (n, v) :: e else (n, w) :: set e name v

end Env

/-- A piece of code in the middle of its run. -/
structure Frame where
  /-- The chunk whose code runs; the module has none. -/
  chunk : Option Nat
  /-- The offset of the next instruction. -/
  ip : Nat := 0
  locals : Env := []
  /-- The height of the operand stack at the call, without the arguments. -/
  base : Nat := 0

/-- The state of the machine. -/
structure Machine where
  /-- The frame that runs. -/
  current : Frame
  /-- The frames that wait, the innermost first and the module last. -/
  callers : List Frame := []
  /-- The operands, the topmost first. -/
  stack : List Value := []
  /-- The printed lines. -/
  output : Array String := #[]

namespace Machine

/-- The machine before the first instruction of the module. -/
def start : Machine where
  current := { chunk := none, locals := [("__name__", .string "__main__")] }

/-- The frames that are alive, the module last. -/
def frames (m : Machine) : List Frame :=
  m.current :: m.callers

/-- The frame of the module. -/
def moduleFrame (m : Machine) : Frame :=
  m.callers.getLast?.getD m.current

/-- What a name is bound to in the module. -/
def global? (m : Machine) (name : String) : Option Value :=
  m.moduleFrame.locals.get? name

/-- What a name means to the running code: a name of its frame, of the module, or a builtin. -/
def lookup (m : Machine) (name : String) : Except Fault Value :=
  match (m.current.locals.get? name).or (m.global? name) with
  | some v => .ok v
  | none =>
    if name = Builtin.print.name then .ok (.builtin .print) else .error (.unboundName name)

end Machine

/-- The code that a frame runs. -/
def Frame.code (f : Frame) (p : Program) : Except Fault (List Instruction) :=
  match f.chunk with
  | none => .ok p.code
  | some i =>
    match p.chunks[i]? with
    | some c => .ok c.code
    | none => .error (.invalidChunk i)

end Naskah
