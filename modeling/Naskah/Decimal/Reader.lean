/-
  Reading numbers: the double nearest to a decimal, the decimal that a text denotes, and 64-bit
  integers.
-/
import Naskah.Decimal.Shortest

namespace Naskah

namespace Decimal

/-- The double nearest to a decimal.  Far outside the range of doubles the answer does not hang on
    the digits. -/
def toFloat (d : Decimal) : Float :=
  if d.digits = 0 ∨ d.leading < -400 then 0.0
  else if 400 < d.leading then infinity
  else Float.ofScientific d.digits (d.exponent < 0) d.exponent.natAbs

/-- The number that a run of decimal digits denotes. -/
def natOfDigits (ds : List Char) : Nat :=
  ds.foldl (fun n c => 10 * n + (c.toNat - '0'.toNat)) 0

/-- Splits off an optional sign; the answer says whether it was a minus. -/
def splitSign : List Char → Bool × List Char
  | '-' :: cs => (true, cs)
  | '+' :: cs => (false, cs)
  | cs => (false, cs)

/-- The exponent after the digits of a decimal: none at all, or a mark, a sign and digits. -/
def exponentOfChars? : List Char → Option Int
  | [] => some 0
  | c :: cs =>
    let (negative, ds) := splitSign cs
    if (c = 'e' ∨ c = 'E') ∧ ds ≠ [] ∧ ds.all Char.isDigit then
      some (if negative then -(natOfDigits ds : Int) else natOfDigits ds)
    else none

/-- The decimal of an unsigned text: digits with an optional point, at least one digit, and an
    optional exponent. -/
def ofChars? (cs : List Char) : Option Decimal :=
  let whole := cs.takeWhile Char.isDigit
  let rest := cs.dropWhile Char.isDigit
  let (fraction, rest) := match rest with
    | '.' :: rest => (rest.takeWhile Char.isDigit, rest.dropWhile Char.isDigit)
    | rest => ([], rest)
  if whole = [] ∧ fraction = [] then none
  else (exponentOfChars? rest).map fun e =>
    ⟨natOfDigits (whole ++ fraction), e - fraction.length⟩

/-- The double that a text denotes: a signed decimal, or a name of infinity or of no number, in
    letters of either case. -/
def floatOfString? (s : String) : Option Float :=
  let (negative, cs) := splitSign s.toList
  let magnitude :=
    match String.ofList (cs.map Char.toLower) with
    | "inf" | "infinity" => some infinity
    | "nan" => some nan
    | _ => (ofChars? cs).map toFloat
  magnitude.map fun x => if negative then -x else x

end Decimal

/-- Whether an integer fits in 64 bits with sign. -/
def fitsInt64 (n : Int) : Bool :=
  -9223372036854775808 ≤ n && n ≤ 9223372036854775807

/-- The 64-bit integer equal to `n`, if there is one. -/
def int64? (n : Int) : Option Int64 :=
  if fitsInt64 n then some (Int64.ofInt n) else none

/-- The 64-bit integer that a text denotes: digits after an optional sign. -/
def int64OfString? (s : String) : Option Int64 :=
  let (negative, ds) := Decimal.splitSign s.toList
  if ds = [] ∨ !ds.all Char.isDigit then none
  else
    let n : Int := Decimal.natOfDigits ds
    int64? (if negative then -n else n)

/-- The double nearest to a 64-bit integer. -/
def floatOfInt64 (n : Int64) : Float :=
  let magnitude := (UInt64.ofNat n.toInt.natAbs).toFloat
  if n.toInt < 0 then -magnitude else magnitude

end Naskah
