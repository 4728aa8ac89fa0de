/-
  Functions under construction: the entry point of a module, named functions, and the nameless
  ones that compute the holes of strings.
-/
import Naskah.Scope

namespace Naskah

/-- The name of the entry point. -/
def entryName : String := "utama"

/-- The kinds of functions. -/
inductive FunctionKind
  | entry
  | named (name : String)
  | anonymous
  deriving DecidableEq

/-- What becomes of a function: the entry point is left out by a jump to a label. -/
inductive FunctionRole
  | entry (exit : Label)
  | named (name : String)
  | anonymous
  deriving DecidableEq

/-- A function under construction. -/
structure FunctionBlock where
  role : FunctionRole
  params : List Param
  /-- The names declared in the function, its parameters included. -/
  names : Names
  line : UInt32
  content : List Asm := []

namespace FunctionBlock

/-- Declares parameters one after the other. -/
def declareParams (params : List Param) (line : UInt32) : Except Diagnostic Names :=
  params.foldlM (fun names p => names.declare p.name ⟨.param, p.type, line⟩) {}

/-- Begins a function.  Only the entry point needs a label. -/
def begin (kind : FunctionKind) (params : List Param) (line : UInt32) (labels : LabelSupply) :
    Except Diagnostic (FunctionBlock × LabelSupply) := do
  let names ← declareParams params line
  let (role, labels) := match kind with
    | .entry => (FunctionRole.entry labels.fresh.1, labels.fresh.2)
    | .named name => (.named name, labels)
    | .anonymous => (.anonymous, labels)
  return ({ role, params, names, line }, labels)

def isAnonymous (b : FunctionBlock) : Bool :=
  b.role = .anonymous

/-- Adds code to the body. -/
def add (b : FunctionBlock) (code : List Asm) : FunctionBlock :=
  { b with content := b.content ++ code }

/-- Code in front of the body: a test whether the module is the main one, or the storing of the
    arguments. -/
def header (b : FunctionBlock) : List Asm :=
  match b.role with
  | .entry _ =>
    [.op (.loadName "__name__"), .op (.loadConst (.string "__main__")), .op (.compare .eq)]
  | .named _ | .anonymous => b.params.map fun p => .op (.storeName p.name)

/-- Code that returns null. -/
def returnNull : List Asm :=
  [.op (.loadConst .null), .op .ret]

/-- What becomes of a function with a header and a body: the code that goes into the surrounding
    code, and the chunks.  A named function becomes a new chunk, and the code binds it to its
    name. -/
def close (role : FunctionRole) (params : List Param) (line : UInt32) (header content : List Asm)
    (chunks : List Chunk) : Except Diagnostic (List Asm × List Chunk) :=
  match role with
  | .entry exit => .ok (header ++ [.op (.jumpIfFalse exit)] ++ content ++ [.mark exit], chunks)
  | .anonymous => .ok (header ++ content, chunks)
  | .named name =>
    match Asm.assemble (header ++ content ++ returnNull) with
    | .error e => broken (.assembly e)
    | .ok code =>
      .ok ([.op (.loadConst (.chunk chunks.length)), .op (.makeFunction name),
          .op (.storeName name)],
        chunks ++ [⟨name, params, code, line⟩])

/-- Ends a function. -/
def finish (b : FunctionBlock) (chunks : List Chunk) :
    Except Diagnostic (List Asm × List Chunk) :=
  close b.role b.params b.line b.header b.content chunks

end FunctionBlock

end Naskah
