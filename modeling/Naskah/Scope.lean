/-
  Scopes: the names that are declared, and the functions that can be called.
-/
import Naskah.Diagnostic
import Naskah.Program

namespace Naskah

/-- How a name came to be declared. -/
inductive NameKind
  | var
  | const
  | param
  deriving DecidableEq

/-- A declared name. -/
structure NameInfo where
  kind : NameKind
  type : TypeName
  line : UInt32
  deriving DecidableEq

/-- The names declared so far, the latest first. -/
structure Names where
  entries : List (String × NameInfo) := []

namespace Names

def get? (t : Names) (name : String) : Option NameInfo :=
  t.entries.lookup name

/-- Declares a name, which must not be declared yet. -/
def declare (t : Names) (name : String) (info : NameInfo) : Except Diagnostic Names :=
  match t.get? name with
  | some _ => refuse (.alreadyDeclared name) info.line
  | none => .ok ⟨(name, info) :: t.entries⟩

/-- Looks a name up that is used on a line. -/
def reference (t : Names) (name : String) (line : UInt32) : Except Diagnostic NameInfo :=
  match t.get? name with
  | some info => .ok info
  | none => refuse (.notDeclared name) line

/-- Requires that a name is declared and no constant. -/
def assignable (t : Names) (name : String) (line : UInt32) : Except Diagnostic Unit := do
  let info ← t.reference name line
  if info.kind = .const then refuse (.constantAssigned name) line else .ok ()

end Names

/-- The functions declared so far, in order. -/
structure Functions where
  declared : List String := []

namespace Functions

def isDeclared (t : Functions) (name : String) : Bool :=
  t.declared.contains name

/-- Declares a function, which must not be declared yet. -/
def declare (t : Functions) (name : String) (line : UInt32) : Except Diagnostic Functions :=
  if t.isDeclared name then refuse (.functionAlreadyDeclared name) line
  else .ok ⟨t.declared ++ [name]⟩

/-- Requires that a function can be called.  Printing always can. -/
def check (t : Functions) (name : String) (line : UInt32) : Except Diagnostic Unit :=
  if name = Builtin.print.name ∨ t.isDeclared name then .ok ()
  else refuse (.functionNotDeclared name) line

end Functions

/-- The checks that an expression makes of the names in it. -/
structure Resolver where
  /-- Requires that a name can be used on a line. -/
  reference (name : String) (line : UInt32) : Except Diagnostic Unit
  /-- Requires that a function can be called on a line. -/
  check (name : String) (line : UInt32) : Except Diagnostic Unit

/-- What an expression may refer to. -/
structure Scope where
  names : Names := {}
  functions : Functions := {}

/-- A scope allows the names and the functions that are declared in it. -/
def Scope.resolver (scope : Scope) : Resolver where
  reference name line := do let _ ← scope.names.reference name line
  check := scope.functions.check

instance : Coe Scope Resolver := ⟨Scope.resolver⟩

end Naskah
