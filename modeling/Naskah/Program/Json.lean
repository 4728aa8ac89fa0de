/-
  Programs as JSON.

  A structure is an object of its fields, or the list of them in order.  A constructor without an
  argument is its name; one with an argument is an object with that one field.  On reading,
  unknown fields are skipped, every known field must be there once, and numbers must be in range.
  Functions as values exist only while a program runs and cannot be written.

  This is the form that the packages `serde` and `serde_json` give to structures and enumerations
  without further attributes, with constructors that are skipped for functions as values; these
  definitions stand for the code that the packages generate.  Taken for granted of it: constructors
  are tagged from outside, those without an argument are also read from an object with null in it, a
  list of fields has exactly their number, a repeated or missing field is an error, and a double
  that is not finite is written as null, which is not read as a double.
-/
import Naskah.Program
import Naskah.Json.Parser
import Naskah.Json.Printer

namespace Naskah

namespace Json

/-- A constructor without an argument. -/
def unit (name : String) : Json :=
  .str (some name)

/-- A constructor with an argument. -/
def tagged (name : String) (j : Json) : Json :=
  .obj [(some name, j)]

def ofNat (n : Nat) : Json :=
  .num (Numeral.ofInt n)

def ofString (s : String) : Json :=
  .str (some s)

/-- An object with fields in the given order. -/
def record (fields : List (String × Json)) : Json :=
  .obj (fields.map fun f => (some f.1, f.2))

/-- The name of a constructor with its argument, if it has one. -/
def variant? : Json → Option (String × Option Json)
  | .str (some name) => some (name, none)
  | .obj [(some name, j)] => some (name, some j)
  | _ => none

/-- The name of a constructor that takes no argument.  Null may stand where the argument would. -/
def unit? (j : Json) : Option String :=
  match j.variant? with
  | some (name, none) | some (name, some .null) => some name
  | _ => none

/-- The value of the one field of a name. -/
def field? (fields : List (String × Json)) (name : String) : Option Json :=
  match fields.filter fun f => f.1 = name with
  | [(_, j)] => some j
  | _ => none

/-- The values of the fields of a structure, in order. -/
def fields? (names : List String) : Json → Option (List Json)
  | .arr js => if js.length = names.length then some js else none
  | .obj fs => do
    let fields ← fs.mapM fun f => f.1.map fun name => (name, f.2)
    names.mapM (field? fields)
  | _ => none

def string? : Json → Option String
  | .str s => s
  | _ => none

def bool? : Json → Option Bool
  | .bool b => some b
  | _ => none

def int? : Json → Option Int
  | .num n => n.toInt?
  | _ => none

def int64? (j : Json) : Option Int64 :=
  j.int?.bind Naskah.int64?

/-- A natural number of at most the given size. -/
def natUpTo? (max : Nat) (j : Json) : Option Nat := do
  let n ← j.int?
  if 0 ≤ n ∧ n ≤ max then some n.toNat else none

/-- A number of 32 bits. -/
def word? : Json → Option Nat :=
  natUpTo? 4294967295

/-- A number of 8 bits. -/
def byte? : Json → Option Nat :=
  natUpTo? 255

def float? : Json → Option Float
  | .num n => n.toFloat?
  | _ => none

def list? {α : Type} (read : Json → Option α) : Json → Option (List α)
  | .arr js => js.mapM read
  | _ => none

end Json

open Json

namespace Value

def toJson? : Value → Option Json
  | null => some (unit "Null")
  | int n => some (tagged "Int" (.num (.ofInt n.toInt)))
  | float x => some (tagged "Float" (if x.isFinite then .num (.ofFloat x) else .null))
  | bool b => some (tagged "Bool" (.bool b))
  | string s => some (tagged "String" (ofString s))
  | chunk i => some (tagged "Chunk" (ofNat i))
  | function .. | builtin _ => none

def ofJson? (j : Json) : Option Value := do
  match ← j.variant? with
  | ("Null", none) | ("Null", some .null) => some .null
  | ("Int", some j) => j.int64?.map .int
  | ("Float", some j) => j.float?.map .float
  | ("Bool", some j) => j.bool?.map .bool
  | ("String", some j) => j.string?.map .string
  | ("Chunk", some j) => j.word?.map .chunk
  | _ => none

end Value

namespace Instr

def toJson? : Instruction → Option Json
  | loadConst v => v.toJson?.map (tagged "LoadConst")
  | loadName n => some (tagged "LoadName" (ofString n))
  | storeName n => some (tagged "StoreName" (ofString n))
  | binary op => some (tagged "Binary" (unit op.name))
  | compare c => some (tagged "Compare" (unit c.name))
  | jumpIfFalse t => some (tagged "JumpIfFalse" (ofNat t))
  | jump t => some (tagged "Jump" (ofNat t))
  | buildString n => some (tagged "BuildString" (ofNat n))
  | call n => some (tagged "Call" (ofNat n))
  | makeFunction n => some (tagged "MakeFunction" (ofString n))
  | ret => some (unit "Return")
  | pop => some (unit "Pop")

def ofJson? (j : Json) : Option Instruction := do
  match ← j.variant? with
  | ("LoadConst", some j) => (Value.ofJson? j).map loadConst
  | ("LoadName", some j) => j.string?.map loadName
  | ("StoreName", some j) => j.string?.map storeName
  | ("Binary", some j) => j.unit?.bind Operation.ofName? |>.map binary
  | ("Compare", some j) => j.unit?.bind Comparison.ofName? |>.map compare
  | ("JumpIfFalse", some j) => j.word?.map jumpIfFalse
  | ("Jump", some j) => j.word?.map jump
  | ("BuildString", some j) => j.word?.map buildString
  | ("Call", some j) => j.byte?.map call
  | ("MakeFunction", some j) => j.string?.map makeFunction
  | ("Return", none) | ("Return", some .null) => some ret
  | ("Pop", none) | ("Pop", some .null) => some pop
  | _ => none

end Instr

namespace Param

def toJson (p : Param) : Json :=
  record [("name", ofString p.name), ("ty", unit p.type.name)]

def ofJson? (j : Json) : Option Param := do
  match ← fields? ["name", "ty"] j with
  | [name, type] => return ⟨← name.string?, ← type.unit?.bind TypeName.ofName?⟩
  | _ => none

end Param

namespace Chunk

def toJson? (c : Chunk) : Option Json := do
  let code ← c.code.mapM Instr.toJson?
  return record [("name", ofString c.name), ("params", .arr (c.params.map Param.toJson)),
    ("code", .arr code), ("line", ofNat c.line.toNat)]

def ofJson? (j : Json) : Option Chunk := do
  match ← fields? ["name", "params", "code", "line"] j with
  | [name, params, code, line] =>
    return {
      name := ← name.string?
      params := ← list? Param.ofJson? params
      code := ← list? Instr.ofJson? code
      line := .ofNat (← line.word?) }
  | _ => none

end Chunk

namespace Program

def toJson? (p : Program) : Option Json := do
  let code ← p.code.mapM Instr.toJson?
  let chunks ← p.chunks.mapM Chunk.toJson?
  return record [("code", .arr code), ("chunks", .arr chunks)]

def ofJson? (j : Json) : Option Program := do
  match ← fields? ["code", "chunks"] j with
  | [code, chunks] => return ⟨← list? Instr.ofJson? code, ← list? Chunk.ofJson? chunks⟩
  | _ => none

/-- The stored form of a program; there is none if a constant is a function. -/
def store? (p : Program) : Option String :=
  p.toJson?.map Json.render

/-- The program of a stored form. -/
def load? (s : String) : Option Program :=
  (Json.parse? s).bind ofJson?

end Program

end Naskah
