/-
  Sessions: each line is the body of an entry point of its own, compiled and run at once.
-/
import Naskah.Command.Host
import Naskah.Text.Blank

namespace Naskah.Command.Session

variable {m : Type → Type} [Monad m]

/-- The source of a line. -/
def wrap (line : String) : String :=
  "utama() \x7b\n" ++ line ++ "\n\x7d\n"

/-- The lines of a text.  A last line that is not ended counts unless it is empty. -/
def lines (text : String) : List String :=
  let parts := (text.toList.splitOn '\n').map String.ofList
  if parts.getLast? = some "" then parts.dropLast else parts

/-- What is said first. -/
def greeting : String :=
  "Pyindo REPL\nhistory: up/down arrows, commands: .help, .quit\n"

/-- What is said at the end of the input. -/
def farewell : String :=
  "sampai jumpa\n"

/-- Compiles and runs a line. -/
def execute (h : Host m) (line : String) : m Unit := do
  match compile (wrap line) with
  | .error d => h.outLine (h.mark d.report.text)
  | .ok p =>
    match ← h.run p with
    | none => pure ()
    | some f => h.outLine (h.markFault f)

/-- Answers a line, and tells whether the session goes on. -/
def answer (h : Host m) (line : String) : m Bool := do
  match String.ofList (Text.strip line.toList) with
  | "" => return true
  | ".quit" | ".exit" => return false
  | ".help" =>
    h.outLine "enter statements such as: tampilkan(1 + 2);"
    return true
  | line =>
    execute h line
    return true

/-- Answers lines up to one that ends the session. -/
def answerAll (h : Host m) : List String → m Unit
  | [] => h.out farewell
  | line :: rest => do
    if ← answer h line then answerAll h rest

/-- A session with a text as its input. -/
def run (h : Host m) (input : String) : m Unit := do
  h.out greeting
  answerAll h (lines input)

end Naskah.Command.Session
