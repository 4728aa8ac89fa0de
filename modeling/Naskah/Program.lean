/-
  Programs: the code of the module, and one chunk of code for every named function.
-/
import Naskah.Instruction

namespace Naskah

/-- The types that a declaration may name.  They are recorded and never checked. -/
inductive TypeName
  | any
  | string
  | array
  | float
  | int
  | boolean
  | character
  | dictionary
  deriving DecidableEq

namespace TypeName

def all : List TypeName :=
  [any, string, array, float, int, boolean, character, dictionary]

/-- The keyword for the type. -/
def keyword : TypeName → String
  | any => "apapun"
  | string => "campuran"
  | array => "himpunan"
  | float => "pecahan"
  | int => "desimal"
  | boolean => "boolean"
  | character => "karakter"
  | dictionary => "kamus"

/-- The name of the type in stored programs. -/
def name : TypeName → String
  | any => "Any"
  | string => "String"
  | array => "Array"
  | float => "Float"
  | int => "Int"
  | boolean => "Boolean"
  | character => "Character"
  | dictionary => "Dictionary"

def ofName? (s : String) : Option TypeName :=
  all.find? fun t => t.name = s

end TypeName

/-- A parameter of a function. -/
structure Param where
  name : String
  type : TypeName
  deriving DecidableEq

/-- The code of one named function, with the line its definition starts on, in 32 bits. -/
structure Chunk where
  name : String
  params : List Param
  code : List Instruction
  line : UInt32
  deriving DecidableEq

/-- What the compiler makes of a source, and what the machine runs. -/
structure Program where
  code : List Instruction
  chunks : List Chunk
  deriving DecidableEq

end Naskah
