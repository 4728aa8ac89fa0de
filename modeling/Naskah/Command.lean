/-
  The command: compiles a file, then writes, lists and runs the program as it is asked to; or
  begins a session.
-/
import Naskah.Command.Options
import Naskah.Command.Session
import Naskah.Program.Json
import Naskah.Program.Listing

namespace Naskah.Command

/-- How the command ends. -/
inductive Exit
  | success
  /-- A file cannot be written. -/
  | failure
  /-- The arguments are refused. -/
  | usage
  /-- The source cannot be read. -/
  | noInput
  /-- The source is refused, or the program has a fault. -/
  | software
  deriving DecidableEq

def Exit.code : Exit → UInt32
  | success => 0
  | failure => 1
  | usage => 64
  | noInput => 66
  | software => 70

variable {m : Type → Type} [Monad m]

/-- Writes a program as JSON. -/
def writeJson (h : Host m) (p : Program) (path : String) : m (Except FileError Unit) :=
  match p.store? with
  | some json => h.write path json
  | none => pure (.error (.failed "the program has a constant without a written form"))

/-- Lists and runs a program, as far as it is asked for. -/
def present (h : Host m) (o : Options) (p : Program) : m Exit := do
  if o.listing then h.out (p.listing h.color)
  if o.run then
    match ← h.run p with
    | none => return .success
    | some f =>
      h.errLine (h.markFault f)
      return .software
  else return .success

/-- Does what is asked for with a program. -/
def process (h : Host m) (o : Options) (p : Program) : m Exit := do
  match o.jsonPath with
  | none => present h o p
  | some path =>
    match ← writeJson h p path with
    | .error e =>
      h.errLine s!"Error: {e.details}"
      return .failure
    | .ok () =>
      h.outLine s!"wrote {path}"
      present h o p

/-- Does what is asked for with a source. -/
def processFile (h : Host m) (o : Options) (path : String) : m Exit := do
  match compileFile (← h.read path) with
  | .error (.unreadable e) =>
    h.errLine s!"cannot read '{path}': {e.message}"
    return .noInput
  | .error (.refused d) =>
    h.outLine d.report.text
    return .software
  | .ok p => process h o p

/-- The command, with what it does when it is asked for a session. -/
def run (h : Host m) (session : m Unit) (args : List String) : m Exit := do
  match Options.read args with
  | .error e =>
    h.errLine e.message
    h.out usage
    return .usage
  | .ok o =>
    if o.help then
      h.out usage
      return .success
    else if o.session then
      session
      return .success
    else
      match o.source with
      | none =>
        h.out usage
        return .usage
      | some path => processFile h o path

end Naskah.Command
