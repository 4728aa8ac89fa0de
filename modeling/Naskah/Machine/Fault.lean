/-
  Faults: why the machine cannot go on, and what is said about it.
-/
import Naskah.Value

namespace Naskah

/-- What an operand was expected to be. -/
inductive Expected
  | integer
  | number
  | text
  | chunk
  | comparable
  deriving DecidableEq

def Expected.name : Expected → String
  | integer => "desimal"
  | number => "number"
  | text => "campuran"
  | chunk => "chunk"
  | comparable => "comparable values"

/-- The most frames that may be alive at once, the frame of the module included. -/
def maxFrames : Nat := 1024

/-- Why the machine cannot go on. -/
inductive Fault
  | stackUnderflow
  | typeMismatch (expected : Expected)
  | divisionByZero
  | integerOverflow
  | invalidShift (amount : Int64)
  | unboundName (name : String)
  | invalidChunk (index : Nat)
  | notCallable (kind : Kind)
  | invalidCallArity (function : String) (expected got : Nat)
  | callDepthExceeded
  | jumpOutOfBounds (target : Nat)
  deriving DecidableEq

def Fault.message : Fault → String
  | stackUnderflow => "stack underflow"
  | typeMismatch e => s!"type mismatch: expected {e.name}"
  | divisionByZero => "division by zero"
  | integerOverflow => "integer overflow"
  | invalidShift n => s!"invalid shift amount {n.toInt}, expected 0..63"
  | unboundName name => s!"name '{name}' is not defined"
  | invalidChunk index => s!"invalid chunk {index}"
  | notCallable kind => s!"'{kind.name}' value is not callable"
  | invalidCallArity f expected got =>
    s!"invalid call arity for '{f}': expected {expected}, got {got}"
  | callDepthExceeded => s!"call depth exceeded the limit of {maxFrames}"
  | jumpOutOfBounds target => s!"jump target {target} out of bounds"

end Naskah
