/-
  Doubles as exact numbers.  A finite double is `± m · 2 ^ q` with `m < 2 ^ 53` and `-1074 ≤ q`;
  this file takes it apart, puts it together again, and computes the remainder of two doubles,
  which is exact: the remainder has no more digits than the shorter operand.
-/
namespace Naskah

/-- The number `± m · 2 ^ q`. -/
structure Binary64 where
  negative : Bool
  m : Nat
  q : Int
  deriving DecidableEq

namespace Binary64

/-- The parts of a finite double. -/
def ofFloat (x : Float) : Binary64 :=
  let bits := x.toBits.toNat
  let exponent : Nat := bits / Nat.pow 2 52 % Nat.pow 2 11
  let fraction : Nat := bits % Nat.pow 2 52
  let negative : Bool := Nat.pow 2 63 ≤ bits
  if exponent = 0 then ⟨negative, fraction, -1074⟩
  else ⟨negative, fraction + Nat.pow 2 52, (exponent : Int) - 1075⟩

/-- The double that is exactly `± m · 2 ^ q`, for `m < 2 ^ 53` and an exponent in range. -/
def toFloat (b : Binary64) : Float :=
  let sign := if b.negative then Nat.pow 2 63 else 0
  if b.m = 0 then Float.ofBits (UInt64.ofNat sign)
  else
    let shift := min (52 - b.m.log2) (b.q + 1074).toNat
    let m := b.m * Nat.pow 2 shift
    let biased := (b.q - shift + 1075).toNat
    let low :=
      if m < Nat.pow 2 52 then m else m - Nat.pow 2 52 + biased * Nat.pow 2 52
    Float.ofBits (UInt64.ofNat (sign + low))

/-- Whether the number is an integer. -/
def isIntegral (b : Binary64) : Bool :=
  0 ≤ b.q || b.m % Nat.pow 2 b.q.natAbs == 0

/-- The magnitude of an integer. -/
def natAbs (b : Binary64) : Nat :=
  if 0 ≤ b.q then b.m * Nat.pow 2 b.q.natAbs else b.m / Nat.pow 2 b.q.natAbs

/-- The remainder of the magnitudes, with the sign of the dividend. -/
def mod (a b : Binary64) : Binary64 :=
  let q := min a.q b.q
  ⟨a.negative, a.m * Nat.pow 2 (a.q - q).toNat % (b.m * Nat.pow 2 (b.q - q).toNat), q⟩

end Binary64

/-- Not a number. -/
def Decimal.nan : Float := Float.ofBits 0x7ff8000000000000

/-- Positive infinity. -/
def Decimal.infinity : Float := Float.ofBits 0x7ff0000000000000

/-- The remainder of truncated division; it takes the sign of the dividend. -/
def Decimal.remainder (x y : Float) : Float :=
  if x.isNaN || y.isNaN || x.isInf || y == 0.0 then Decimal.nan
  else if y.isInf then x
  else ((Binary64.ofFloat x).mod (Binary64.ofFloat y)).toFloat

end Naskah
