/-
  Values: what the machine computes with.  A value has a kind, a truth and a text; numbers are
  64-bit integers and doubles, and equality of numbers is that of their type, so that no number
  equals "not a number".
-/
import Naskah.Decimal.Reader

namespace Naskah

/-- The functions that exist without being defined. -/
inductive Builtin
  | print
  deriving DecidableEq

/-- The name under which a builtin is called. -/
def Builtin.name : Builtin → String
  | .print => "tampilkan"

/-- A value of a running program. -/
inductive Value
  | null
  | int (n : Int64)
  | float (x : Float)
  | bool (b : Bool)
  | string (s : String)
  /-- A code chunk of the program, by its place in the list of chunks, which stands for a number of
      32 bits. -/
  | chunk (index : Nat)
  /-- A defined function: its chunk, and the name it calls itself by. -/
  | function (chunk : Nat) (name : String)
  | builtin (b : Builtin)
  deriving DecidableEq

/-- The kinds of values that programs can tell apart. -/
inductive Kind
  | null
  | int
  | float
  | bool
  | string
  | chunk
  | function
  deriving DecidableEq

/-- The word for a kind. -/
def Kind.name : Kind → String
  | .null => "kosong"
  | .int => "desimal"
  | .float => "pecahan"
  | .bool => "boolean"
  | .string => "campuran"
  | .chunk => "chunk"
  | .function => "fungsi"

namespace Value

def kind : Value → Kind
  | null => .null
  | int _ => .int
  | float _ => .float
  | bool _ => .bool
  | string _ => .string
  | chunk _ => .chunk
  | function .. | builtin _ => .function

/-- Null, zero, falsehood and the empty text count as false, everything else as true. -/
def isTruthy : Value → Bool
  | null => false
  | int n => n != 0
  | float x => x != 0.0
  | bool b => b
  | string s => !s.isEmpty
  | chunk _ | function .. | builtin _ => true

/-- The text of a double: all digits of an integral one, otherwise the fewest digits that read
    back, a tie going up; never an exponent. -/
def floatText (x : Float) : String :=
  if x.isNaN then "NaN"
  else
    let sign := if x.toBits ≥ 0x8000000000000000 then "-" else ""
    if x.isInf then sign ++ "inf"
    else
      let b := Binary64.ofFloat x
      let d := if b.isIntegral then ⟨b.natAbs, 0⟩ else Decimal.shortest .up b.m b.q
      sign ++ d.positional

/-- The text of a value, as it is printed. -/
def text : Value → String
  | null => "kosong"
  | int n => toString n.toInt
  | float x => floatText x
  | bool true => "benar"
  | bool false => "salah"
  | string s => s
  | chunk index => s!"<chunk {index}>"
  | function _ name => s!"<fungsi {name}>"
  | builtin b => s!"<fungsi bawaan {b.name}>"

/-- Equality of values; doubles are compared as numbers. -/
def same : Value → Value → Bool
  | float x, float y => x == y
  | v, w => v = w

end Value

/-- A value that takes part in arithmetic. -/
inductive Number
  | int (n : Int64)
  | float (x : Float)

/-- The double of a number. -/
def Number.toFloat : Number → Float
  | int n => floatOfInt64 n
  | float x => x

def Value.number? : Value → Option Number
  | int n => some (.int n)
  | float x => some (.float x)
  | _ => none

end Naskah
