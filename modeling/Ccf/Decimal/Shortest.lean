import Ccf.Time.Instant

/-!
# The shortest decimal of a double

A double stands for all reals that round to it.  Its shortest decimal is the multiple of the largest
power of ten that lies in that interval, and the nearest one to the double if the interval holds two
neighbouring multiples; an exact tie goes to the larger.  All arithmetic is on natural numbers: the
double is `significand * 2 ^ exponent`, and the interval ends half-way to the neighbours, which are
included when the significand is even.

`Instant.decimal` writes the digits positionally, whatever the magnitude.
-/

namespace Ccf

/-- A number `digits * 10 ^ exponent`. -/
structure Decimal where
  digits : Nat
  exponent : Int
deriving DecidableEq, Repr

namespace Decimal

/-- The positional form: no exponent, and a point only before places that are needed. -/
def positional (decimal : Decimal) : String :=
  let digits := toString decimal.digits
  if 0 ≤ decimal.exponent then
    digits ++ String.ofList (List.replicate decimal.exponent.toNat '0')
  else
    let places := (-decimal.exponent).toNat
    let padded := List.replicate (places + 1 - digits.length) '0' ++ digits.toList
    String.ofList (padded.take (padded.length - places)) ++ "." ++
      String.ofList (padded.drop (padded.length - places))

end Decimal

/-- The reals that round to one double, as fractions over a common denominator. -/
structure RoundingInterval where
  lower : Nat
  value : Nat
  upper : Nat
  denominator : Nat
  /-- Whether the two ends round to the double as well. -/
  closed : Bool
deriving DecidableEq, Repr

namespace RoundingInterval

def contains (interval : RoundingInterval) (numerator : Nat) : Bool :=
  if interval.closed then
    decide (interval.lower ≤ numerator) && decide (numerator ≤ interval.upper)
  else
    decide (interval.lower < numerator) && decide (numerator < interval.upper)

/-- The interval with all its fractions expanded. -/
def scale (interval : RoundingInterval) (factor : Nat) : RoundingInterval where
  lower := interval.lower * factor
  value := interval.value * factor
  upper := interval.upper * factor
  denominator := interval.denominator
  closed := interval.closed

/-- The nearest multiple of `unit / interval.denominator` in the interval, as a count of units. -/
def nearestMultiple? (interval : RoundingInterval) (unit : Nat) : Option Nat :=
  let below := interval.value / unit
  let above := below + 1
  match interval.contains (below * unit), interval.contains (above * unit) with
  | true, true =>
    if interval.value - below * unit < above * unit - interval.value then some below else some above
  | true, false => some below
  | false, true => some above
  | false, false => none

/-- The nearest multiple of `10 ^ exponent` in the interval. -/
def onGrid? (interval : RoundingInterval) (exponent : Int) : Option Decimal :=
  let found :=
    if 0 ≤ exponent then
      interval.nearestMultiple? (Nat.pow 10 exponent.toNat * interval.denominator)
    else
      (interval.scale (Nat.pow 10 (-exponent).toNat)).nearestMultiple? interval.denominator
  found.map fun digits => { digits := digits, exponent := exponent }

/-- The first decimal found on the grids of `start`, `start - 1` and so on. -/
def search (interval : RoundingInterval) : Nat → Int → Option Decimal
  | 0, _ => none
  | grids + 1, exponent =>
    match interval.onGrid? exponent with
    | some decimal => some decimal
    | none => interval.search grids (exponent - 1)

/-- The interval of `significand * 2 ^ exponent`.  Below the smallest significand of a binade the
neighbour is half as far away. -/
def ofBinary (significand : Nat) (exponent : Int) (binadeStart : Bool) : RoundingInterval :=
  let up := (exponent - 2).toNat
  let down := (2 - exponent).toNat
  { lower := (4 * significand - (if binadeStart then 1 else 2)) <<< up
    value := (4 * significand) <<< up
    upper := (4 * significand + 2) <<< up
    denominator := 1 <<< down
    closed := significand % 2 == 0 }

end RoundingInterval

namespace Instant

def exponentField (time : Instant) : Nat := time.magnitude / binadeSize

def fractionField (time : Instant) : Nat := time.magnitude % binadeSize

/-- The reals that round to the absolute value of a finite number. -/
def roundingInterval (time : Instant) : RoundingInterval :=
  if time.exponentField = 0 then
    .ofBinary time.fractionField (-1074) false
  else
    .ofBinary (binadeSize + time.fractionField) (time.exponentField - 1075)
      (time.fractionField == 0 && decide (1 < time.exponentField))

/-- The shortest decimal of the absolute value of a finite number other than zero. -/
def shortest (time : Instant) : Decimal :=
  (time.roundingInterval.search 700 309).getD { digits := 0, exponent := 0 }

/-- The positional decimal of a number; a pattern that is no number has no sign. -/
def decimal (time : Instant) : String :=
  if time.isNaN then
    "NaN"
  else
    (if time.isNegative then "-" else "") ++
      (if !time.isFinite then "inf"
      else if time.magnitude = 0 then "0"
      else time.shortest.positional)

end Instant

end Ccf
