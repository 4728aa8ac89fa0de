/-
  Operations and comparisons on values.

  `Operation.apply` and `Comparison.apply` say what comes out of two operands, or why nothing
  does.  Integer results that do not fit in 64 bits are faults; an integer and a double meet as
  doubles; division always gives a double; the remainder takes the sign of the divisor.
-/
import Naskah.Instruction
import Naskah.Machine.Fault

namespace Naskah

/-- The number that a value is. -/
def Value.asNumber (v : Value) : Except Fault Number :=
  match v.number? with
  | some n => .ok n
  | none => .error (.typeMismatch .number)

/-- The integer that a value is. -/
def Value.asInt : Value → Except Fault Int64
  | .int n => .ok n
  | _ => .error (.typeMismatch .integer)

/-- The shift amount that a value is. -/
def Value.asShift (v : Value) : Except Fault Int64 := do
  let n ← v.asInt
  if 0 ≤ n.toInt ∧ n.toInt ≤ 63 then .ok n else .error (.invalidShift n)

namespace Arithmetic

/-- An integer result, if it fits in 64 bits. -/
def checked (n : Int) : Except Fault Int64 :=
  match int64? n with
  | some n => .ok n
  | none => .error .integerOverflow

/-- The product of two integers, if it fits in 64 bits. -/
def mulInt (a b : Int64) : Except Fault Int64 :=
  checked (a.toInt * b.toInt)

/-- The remainder of the division that rounds toward zero; it fails where the quotient does not
    fit. -/
def remInt (a b : Int64) : Except Fault Int64 :=
  if fitsInt64 (a.toInt.tdiv b.toInt) then .ok (a % b) else .error .integerOverflow

/-- The remainder with the sign of the divisor. -/
def modInt (a b : Int64) : Except Fault Int64 :=
  if b = 0 then .error .divisionByZero
  else do
    let r ← remInt a b
    .ok (if r != 0 && (r < 0) != (b < 0) then r + b else r)

/-- The remainder with the sign of the divisor. -/
def modFloat (x y : Float) : Except Fault Float :=
  if y == 0.0 then .error .divisionByZero
  else
    let r := Decimal.remainder x y
    .ok (if r != 0.0 && (r < 0.0) != (y < 0.0) then r + y else r)

/-- The quotient of two doubles. -/
def divFloat (x y : Float) : Except Fault Float :=
  if y == 0.0 then .error .divisionByZero else .ok (x / y)

/-- `acc` times a power of `base`, by repeated squaring.  Every product has to fit. -/
def mulPow (acc base : Int64) (n : Nat) : Except Fault Int64 :=
  if n = 0 then .ok acc
  else if n = 1 then mulInt acc base
  else if n % 2 = 1 then do
    let acc ← mulInt acc base
    let square ← mulInt base base
    mulPow acc square (n / 2)
  else do
    let square ← mulInt base base
    mulPow acc square (n / 2)
termination_by n
decreasing_by
  all_goals exact Nat.div_lt_self (Nat.pos_of_ne_zero ‹¬ n = 0›) (Nat.lt_succ_self 1)

/-- A power whose exponent is not negative and has at most 32 bits. -/
def powInt (a : Int64) (n : Nat) : Except Fault Int64 :=
  if Nat.pow 2 32 ≤ n then .error .integerOverflow else mulPow 1 a n

/-- A power of two numbers: of integers as long as the exponent is not negative. -/
def pow : Number → Number → Except Fault Value
  | .int a, .int n =>
    if 0 ≤ n.toInt then (powInt a n.toInt.toNat).map .int
    else .ok (.float (Float.pow (floatOfInt64 a) (floatOfInt64 n)))
  | a, b => .ok (.float (Float.pow a.toFloat b.toFloat))

/-- Applies `onInts` to two integers, and otherwise `onFloats` to two doubles. -/
def numeric (onInts : Int64 → Int64 → Except Fault Int64)
    (onFloats : Float → Float → Except Fault Float) : Number → Number → Except Fault Value
  | .int a, .int b => (onInts a b).map .int
  | a, b => (onFloats a.toFloat b.toFloat).map .float

/-- The order of two doubles, if neither is "not a number". -/
def orderFloat? (x y : Float) : Option Ordering :=
  if x < y then some .lt else if x == y then some .eq else if y < x then some .gt else none

end Arithmetic

open Arithmetic

/-- The order of two values, if they have one: texts by their characters, truth values with
    falsehood first, and numbers. -/
def Value.order? : Value → Value → Option Ordering
  | .string a, .string b => some (compare a b)
  | .bool a, .bool b => some (compare a b)
  | .int a, .int b => some (compare a.toInt b.toInt)
  | v, w =>
    match v.number?, w.number? with
    | some a, some b => orderFloat? a.toFloat b.toFloat
    | _, _ => none

/-- What a comparison says about two values. -/
def Comparison.apply (c : Comparison) (l r : Value) : Except Fault Bool :=
  match c, l.order? r with
  | .eq, some o => .ok o.isEq
  | .eq, none => .ok (l.same r)
  | .ne, some o => .ok o.isNe
  | .ne, none => .ok (!l.same r)
  | .lt, some o => .ok o.isLT
  | .gt, some o => .ok o.isGT
  | .le, some o => .ok o.isLE
  | .ge, some o => .ok o.isGE
  | _, none => .error (.typeMismatch .comparable)

namespace Operation

/-- What the right operand has to be, whatever the left one is. -/
def checkRight : Operation → Value → Except Fault Unit
  | add, .string _ => .ok ()
  | add, v | sub, v | mul, v | div, v | mod, v | pow, v => v.asNumber.map fun _ => ()
  | bitAnd, v | bitOr, v => v.asInt.map fun _ => ()
  | shl, v | shr, v => v.asShift.map fun _ => ()
  | and, _ | or, _ => .ok ()

/-- The outcome of an operation on two numbers, the right one being looked at first. -/
def onNumbers (f : Number → Number → Except Fault Value) (l r : Value) : Except Fault Value := do
  let b ← r.asNumber
  let a ← l.asNumber
  f a b

/-- The outcome of an operation on two integers, the right one being looked at first. -/
def onInts (right : Value → Except Fault Int64) (f : Int64 → Int64 → Int64) (l r : Value) :
    Except Fault Value := do
  let b ← right r
  let a ← l.asInt
  .ok (.int (f a b))

/-- The outcome of an operation on its left and right operand. -/
def apply (op : Operation) (l r : Value) : Except Fault Value :=
  match op with
  | add =>
    match r, l with
    | .string b, .string a => .ok (.string (a ++ b))
    | .string _, _ => .error (.typeMismatch .text)
    | r, l =>
      onNumbers (numeric (fun a b => checked (a.toInt + b.toInt)) fun x y => .ok (x + y)) l r
  | sub => onNumbers (numeric (fun a b => checked (a.toInt - b.toInt)) fun x y => .ok (x - y)) l r
  | mul => onNumbers (numeric mulInt fun x y => .ok (x * y)) l r
  | div => onNumbers (fun a b => (divFloat a.toFloat b.toFloat).map .float) l r
  | mod => onNumbers (numeric modInt modFloat) l r
  | pow => onNumbers Arithmetic.pow l r
  | bitAnd => onInts Value.asInt (· &&& ·) l r
  | bitOr => onInts Value.asInt (· ||| ·) l r
  | shl => onInts Value.asShift (· <<< ·) l r
  | shr => onInts Value.asShift (· >>> ·) l r
  | and => .ok (if l.isTruthy then r else l)
  | or => .ok (if l.isTruthy then l else r)

end Operation

end Naskah
