/-
  Files: why one cannot be read or written, and compiling what one holds.
-/
import Naskah.Compile

namespace Naskah.Command

/-- Why a file cannot be read or written. -/
inductive FileError
  | notFound
  | notDirectory
  | isDirectory
  | nameTooLong
  | denied
  /-- The file holds no text in UTF-8. -/
  | notText
  | failed (text : String)
  deriving DecidableEq

/-- An error of the system: its number, its name and its text. -/
structure SystemError where
  code : Nat
  kind : String
  text : String

namespace FileError

def system? : FileError → Option SystemError
  | notFound => some ⟨2, "NotFound", "No such file or directory"⟩
  | denied => some ⟨13, "PermissionDenied", "Permission denied"⟩
  | notDirectory => some ⟨20, "NotADirectory", "Not a directory"⟩
  | isDirectory => some ⟨21, "IsADirectory", "Is a directory"⟩
  | nameTooLong => some ⟨36, "InvalidFilename", "File name too long"⟩
  | notText | failed _ => none

/-- The text of an error that does not come from the system. -/
def plainText : FileError → String
  | failed text => text
  | _ => "stream did not contain valid UTF-8"

/-- The text that is shown to a user. -/
def message (e : FileError) : String :=
  match e.system? with
  | some s => s!"{s.text} (os error {s.code})"
  | none => e.plainText

/-- The text that is shown when the command gives up. -/
def details (e : FileError) : String :=
  match e.system? with
  | some s => s!"Os \x7b code: {s.code}, kind: {s.kind}, message: \"{s.text}\" \x7d"
  | none => e.plainText

end FileError

/-- Why there is no program for a file. -/
inductive SourceError
  | unreadable (e : FileError)
  | refused (d : Diagnostic)
  deriving DecidableEq

def SourceError.text : SourceError → String
  | unreadable e => e.message
  | refused d => d.report.text

/-- Compiles what has been read from a file. -/
def compileFile (content : Except FileError ByteArray) : Except SourceError Program :=
  match content with
  | .error e => .error (.unreadable e)
  | .ok bytes =>
    match String.fromUTF8? bytes with
    | none => .error (.unreadable .notText)
    | some text => (compile text).mapError .refused

end Naskah.Command
