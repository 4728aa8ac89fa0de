/-
  The host: what the command needs from the world around it.
-/
import Naskah.Command.File
import Naskah.Machine.Fault

namespace Naskah.Command

/-- Files, two channels of output, and a machine whose lines go to the first of them. -/
structure Host (m : Type → Type) where
  /-- Whether the output is coloured. -/
  color : Bool
  read : String → m (Except FileError ByteArray)
  write : String → String → m (Except FileError Unit)
  out : String → m Unit
  err : String → m Unit
  /-- Runs a program up to its end or its fault. -/
  run : Program → m (Option Fault)

namespace Host

variable {m : Type → Type}

/-- Writes a line. -/
def outLine (h : Host m) (line : String) : m Unit :=
  h.out (line ++ "\n")

/-- Writes a line to the channel of errors. -/
def errLine (h : Host m) (line : String) : m Unit :=
  h.err (line ++ "\n")

/-- An error as it is shown: in bright red, if there is colour. -/
def mark (h : Host m) (text : String) : String :=
  if h.color then "\x1b[91m" ++ text ++ "\x1b[39m" else text

/-- A fault as it is shown. -/
def markFault (h : Host m) (f : Fault) : String :=
  h.mark s!"runtime error: {f.message}"

end Host

end Naskah.Command
