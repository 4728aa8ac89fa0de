/-
  The command on the files, the input and the output of the process.
-/
import Naskah.Command
import Naskah.Machine.Step

namespace Naskah.Command

/-- The reason that an error of the system gives. -/
def FileError.ofSystem : IO.Error → FileError
  | .noFileOrDirectory .. => .notFound
  | .permissionDenied .. => .denied
  | .inappropriateType .. => .isDirectory
  | e => .failed e.toString

/-- Whether the output is coloured: as the environment says, else if it goes to a terminal. -/
def wantsColor : IO Bool := do
  if (← IO.getEnv "NO_COLOR").isSome then return false
  if (← IO.getEnv "FORCE_COLOR").isSome then return true
  (← IO.getStdout).isTty

/-- Runs a machine to its end, and writes each line after the steps that printed it. -/
partial def play (p : Program) (m : Machine) : IO (Option Fault) := do
  let (r, m) := match Machine.runFor p 4096 m with
    | .ok r m => (Except.ok r, m)
    | .error f m => (.error f, m)
  for line in m.output do
    IO.println line
  match r with
  | .error f => return some f
  | .ok (some _) => return none
  | .ok none => play p { m with output := #[] }

/-- The host of a process. -/
def processHost (color : Bool) : Host IO where
  color
  read path := do
    try
      return .ok (← IO.FS.readBinFile path)
    catch e => return .error (.ofSystem e)
  write path text := do
    try
      IO.FS.writeFile path text
      return .ok ()
    catch e => return .error (.ofSystem e)
  out := IO.print
  err := IO.eprint
  run p := play p Machine.start

/-- Answers lines of the input up to its end. -/
partial def converse (h : Host IO) (input : IO.FS.Stream) : IO Unit := do
  let line ← input.getLine
  if line.isEmpty then h.out Session.farewell
  else if ← Session.answer h line then converse h input

end Naskah.Command

open Naskah.Command in
def main (args : List String) : IO UInt32 := do
  let h := processHost (← wantsColor)
  let session := do
    h.out Session.greeting
    converse h (← IO.getStdin)
  return (← run h session args).code
