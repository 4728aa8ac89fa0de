/-
  Rehearsals: the command on a folder in memory, with its input and all its output in memory, too.
-/
import Naskah.Command
import Naskah.Command.Folder
import Naskah.Machine.Step

namespace Naskah.Command

/-- The world of a rehearsal. -/
structure Stage where
  folder : Folder
  out : String := ""
  err : String := ""

namespace Stage

/-- Runs a program for at most the given number of steps. -/
def play (steps : Nat) (p : Program) : StateM Stage (Option Fault) := do
  let (fault, machine) : Option Fault × Machine :=
    match Machine.runFor p steps Machine.start with
    | .ok _ machine => (none, machine)
    | .error fault machine => (some fault, machine)
  modify fun s => { s with out := machine.output.foldl (fun out line => out ++ line ++ "\n") s.out }
  return fault

/-- The host of a rehearsal. -/
def host (color : Bool) (steps : Nat) : Host (StateM Stage) where
  color
  read path := return (← get).folder.read path |>.map String.toUTF8
  write path text := do
    match (← get).folder.write path text with
    | .error e => return .error e
    | .ok folder =>
      modify fun s => { s with folder }
      return .ok ()
  out text := modify fun s => { s with out := s.out ++ text }
  err text := modify fun s => { s with err := s.err ++ text }
  run := play steps

/-- Rehearses the command with a text as its input. -/
def rehearse (color : Bool) (steps : Nat) (folder : Folder) (input : String)
    (args : List String) : Exit × Stage :=
  let h := host color steps
  Command.run h (Session.run h input) args |>.run { folder }

end Stage

end Naskah.Command
