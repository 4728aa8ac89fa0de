/-
  The options of the command.
-/
namespace Naskah.Command

/-- What the command is asked to do. -/
structure Options where
  /-- The path of the source. -/
  source : Option String := none
  /-- Whether the program is listed. -/
  listing : Bool := false
  /-- Where the program is written as JSON. -/
  jsonPath : Option String := none
  /-- Whether the program is run. -/
  run : Bool := true
  /-- Whether lines are read and answered one by one. -/
  session : Bool := false
  help : Bool := false
  deriving DecidableEq

/-- Why arguments are refused. -/
inductive UsageError
  | noJsonPath
  | unknownFlag (flag : String)
  | severalSources
  | sessionWithSource
  deriving DecidableEq

def UsageError.message : UsageError → String
  | noJsonPath => "missing value for --emit-json"
  | unknownFlag flag => s!"unknown flag '{flag}'"
  | severalSources => "multiple source paths provided"
  | sessionWithSource => "--repl does not take a source path"

/-- How the command is used. -/
def usage : String :=
  "Usage:\n" ++
  "  pyindo [-D|--disasm] [--emit-json <path>] [--no-run] <source_path>\n" ++
  "  pyindo --repl\n" ++
  "  pyindo -h|--help\n"

namespace Options

/-- Reads arguments one after the other.  The argument after `--emit-json` is a path, whatever it
    looks like. -/
def readFrom : Options → List String → Except UsageError Options
  | o, [] => .ok o
  | o, "-h" :: args | o, "--help" :: args => readFrom { o with help := true } args
  | o, "-D" :: args | o, "--disasm" :: args => readFrom { o with listing := true } args
  | _, ["--emit-json"] => .error .noJsonPath
  | o, "--emit-json" :: path :: args => readFrom { o with jsonPath := some path } args
  | o, "--no-run" :: args => readFrom { o with run := false } args
  | o, "--repl" :: args => readFrom { o with session := true } args
  | o, arg :: args =>
    if arg.toList.head? = some '-' then .error (.unknownFlag arg)
    else if o.source.isSome then .error .severalSources
    else readFrom { o with source := some arg } args

/-- Reads the arguments of the command. -/
def read (args : List String) : Except UsageError Options := do
  let o ← readFrom {} args
  if o.session ∧ o.source.isSome then .error .sessionWithSource else .ok o

end Options

end Naskah.Command
