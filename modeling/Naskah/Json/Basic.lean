/-
  JSON values.  Numbers keep their digits, since what they mean depends on the type that is read;
  a string literal may fail to denote a text, which matters only where the text is used.

  The modules on JSON stand for the package `serde_json`, which is used and not contained here; each
  of them says which documented behaviour of the package it takes for granted.  For numbers this is:
  an integer is read from a literal without point and exponent, except for `-0`, if it is in the
  range of its type; a double is read from any number literal of finite value, from the leading
  digits that fit in 64 bits and a power of ten (the package has an option for exact reading, which
  is off by default); a double is written with the fewest digits that denote it.
-/
import Naskah.Decimal.Reader

namespace Naskah

/-- A number literal: digits with an optional sign, fraction and exponent. -/
structure Numeral where
  negative : Bool := false
  whole : Nat
  /-- The digits after the point; without any there is no point. -/
  fraction : List Char := []
  exponent : Option Int := none
  deriving DecidableEq

/-- A JSON value. -/
inductive Json
  | null
  | bool (b : Bool)
  | num (n : Numeral)
  /-- A string literal, which denotes no text if one of its escapes is half of a pair. -/
  | str (s : Option String)
  | arr (items : List Json)
  /-- The fields in the order they are written; names may repeat. -/
  | obj (fields : List (Option String × Json))

namespace Numeral

/-- The integer that an integer literal denotes.  A negative zero is no integer. -/
def toInt? (n : Numeral) : Option Int :=
  if n.fraction ≠ [] ∨ n.exponent ≠ none ∨ (n.negative ∧ n.whole = 0) then none
  else some (if n.negative then -(n.whole : Int) else n.whole)

/-- Appends digits to a significand as long as it stays below `2 ^ 64`, and counts the digits that
    were appended. -/
def fill : Nat → Nat → List Char → Nat × Nat
  | s, taken, [] => (s, taken)
  | s, taken, c :: cs =>
    let s' := 10 * s + (c.toNat - '0'.toNat)
    if s' < Nat.pow 2 64 then fill s' (taken + 1) cs else (s, taken)

/-- Divides by `10 ^ n` in steps of at most `10 ^ 308`. -/
def scaleDown (x : Float) (n : Nat) : Float :=
  if n ≤ 308 then x / Float.ofScientific 1 false n
  else if x == 0.0 then x
  else scaleDown (x / 1e308) (n - 308)
termination_by n

/-- Multiplies by `10 ^ n`, unless the product leaves the range of doubles. -/
def scaleUp? (x : Float) (n : Nat) : Option Float :=
  if n ≤ 308 then
    let y := x * Float.ofScientific 1 false n
    if y.isInf then none else some y
  else if x == 0.0 then some x
  else none

/-- The double that a number literal denotes: the leading digits that fit in 64 bits, scaled by a
    power of ten.  A literal out of range denotes none. -/
def toFloat? (n : Numeral) : Option Float :=
  let digits := Nat.toDigits 10 n.whole
  let (s, taken) := fill 0 0 digits
  let (s, places) := fill s 0 n.fraction
  let e : Int := (digits.length - taken : Nat) - (places : Int) + n.exponent.getD 0
  let x := (UInt64.ofNat s).toFloat
  let y := if 0 ≤ e then scaleUp? x e.toNat else some (scaleDown x e.natAbs)
  y.map fun y => if n.negative then -y else y

/-- The literal of an integer. -/
def ofInt (n : Int) : Numeral :=
  { negative := n < 0, whole := n.natAbs }

/-- The literal of a finite double: the fewest digits that read back, a tie going to the even
    digit.  From `10⁻⁵` up to `10¹⁶` the point stands in place, elsewhere there is an exponent. -/
def ofFloat (x : Float) : Numeral :=
  let b := Binary64.ofFloat x
  let d := if b.m = 0 then ⟨0, 0⟩ else Decimal.shortest .toEven b.m b.q
  if b.m = 0 ∨ (-5 ≤ d.leading ∧ d.leading < 16) then
    let whole := d.digits * Nat.pow 10 d.exponent.toNat / Nat.pow 10 (-d.exponent).toNat
    let fraction := Nat.toDigits 10 (d.digits % Nat.pow 10 (-d.exponent).toNat)
    let zeros := List.replicate ((-d.exponent).toNat - fraction.length) '0'
    { negative := b.negative, whole, fraction := zeros ++ fraction }
  else
    match Nat.toDigits 10 d.digits with
    | c :: ds =>
      { negative := b.negative, whole := c.toNat - '0'.toNat, fraction := ds,
        exponent := some d.leading }
    | [] => { negative := b.negative, whole := 0 }

end Numeral

end Naskah
