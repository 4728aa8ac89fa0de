/-
  The shortest decimal of a double: among the decimals that lie nearer to the double than to any
  other one, the fewest digits, and of those the nearest.  The search runs over grids of 1 to 17
  digits; on each grid only the two neighbours of the number have to be tried.
-/
import Naskah.Decimal.Binary64

namespace Naskah

/-- The number `digits · 10 ^ exponent`. -/
structure Decimal where
  digits : Nat
  exponent : Int
  deriving DecidableEq

/-- Which of two equally near decimals is taken. -/
inductive Tie
  | toEven
  | up
  deriving DecidableEq

namespace Decimal

/-- The number of decimal digits; zero has none. -/
def digitCount (n : Nat) : Nat :=
  if n = 0 then 0 else (Nat.toDigits 10 n).length

/-- The reals that round to one double, as fractions over a common denominator.  The ends belong
    to the interval iff the significand of the double is even. -/
structure Interval where
  low : Nat
  mid : Nat
  high : Nat
  den : Nat
  closed : Bool

namespace Interval

/-- The interval of `m · 2 ^ q`.  Below a power of two the next double is nearer. -/
def ofBinary (m : Nat) (q : Int) : Interval :=
  let scale := Nat.pow 2 (q - 2).toNat
  let below := if m = Nat.pow 2 52 ∧ -1074 < q then 1 else 2
  ⟨(4 * m - below) * scale, 4 * m * scale, (4 * m + 2) * scale, Nat.pow 2 (2 - q).toNat,
    m % 2 == 0⟩

/-- The same interval counted in units of `10 ^ i`. -/
def inUnits (I : Interval) (i : Int) : Interval :=
  let scale := Nat.pow 10 (-i).toNat
  ⟨I.low * scale, I.mid * scale, I.high * scale, I.den * Nat.pow 10 i.toNat, I.closed⟩

/-- Whether the interval holds an integer. -/
def holds (I : Interval) (n : Nat) : Bool :=
  if I.closed then I.low ≤ n * I.den && n * I.den ≤ I.high
  else I.low < n * I.den && n * I.den < I.high

/-- The integer of the interval that is nearest to its middle, if there is one. -/
def nearest (tie : Tie) (I : Interval) : Option Nat :=
  let n := I.mid / I.den
  match I.holds n, I.holds (n + 1) with
  | false, false => none
  | true, false => some n
  | false, true => some (n + 1)
  | true, true =>
    match compare (2 * I.mid) ((2 * n + 1) * I.den) with
    | .lt => some n
    | .gt => some (n + 1)
    | .eq => some (if tie = .toEven ∧ n % 2 = 0 then n else n + 1)

/-- The `k` with `10 ^ (k - 1) ≤ mid / den < 10 ^ k`. -/
def magnitude (I : Interval) : Int :=
  if I.den ≤ I.mid then digitCount (I.mid / I.den) else 1 - digitCount ((I.den - 1) / I.mid)

end Interval

/-- Drops zeros at the end of the digits, at most `n` of them. -/
def trim : Nat → Decimal → Decimal
  | 0, d => d
  | n + 1, d =>
    if d.digits ≠ 0 ∧ d.digits % 10 = 0 then trim n ⟨d.digits / 10, d.exponent + 1⟩ else d

/-- The shortest decimal of `m · 2 ^ q`, for a positive `m`. -/
def shortest (tie : Tie) (m : Nat) (q : Int) : Decimal :=
  let I := Interval.ofBinary m q
  let k := I.magnitude
  let onGrid (n : Nat) : Option Decimal :=
    ((I.inUnits (k - n)).nearest tie).map fun digits => ⟨digits, k - n⟩
  trim 17 (((List.range' 1 17).findSome? onGrid).getD ⟨m, 0⟩)

/-- The exponent of the first digit. -/
def leading (d : Decimal) : Int :=
  digitCount d.digits + d.exponent - 1

/-- The decimal with its point in place and at least one digit on either side of it. -/
def positional (d : Decimal) : String :=
  let ds := Nat.toDigits 10 d.digits
  if 0 ≤ d.exponent then
    String.ofList (ds ++ List.replicate d.exponent.toNat '0' ++ ['.', '0'])
  else
    let places := d.exponent.natAbs
    let ds := List.replicate (places + 1 - ds.length) '0' ++ ds
    String.ofList (ds.take (ds.length - places) ++ ['.'] ++ ds.drop (ds.length - places))

end Decimal

end Naskah
