/-!
Decimal text of 64-bit floats. A float is written with the fewest digits that read back as the same
float, and of those with the nearest; of two that are equally near, with the larger one.
-/

namespace CallLowering

-- The float `mantissa * 2 ^ exponent`. At a power of two the gap below is half the gap above.
structure BinaryFloat where
  mantissa : Nat
  exponent : Int
  narrowBelow : Bool
deriving DecidableEq, Repr

-- The number `digits * 10 ^ exponent`.
structure Decimal where
  digits : Nat
  exponent : Int
deriving DecidableEq, Repr

structure Ratio where
  num : Nat
  den : Nat
deriving DecidableEq, Repr

namespace Ratio

def scale (ratio : Ratio) (base : Nat) (exponent : Int) : Ratio :=
  if 0 ≤ exponent then { ratio with num := ratio.num * base.pow exponent.toNat }
  else { ratio with den := ratio.den * base.pow (-exponent).toNat }

-- The exponent of the largest power of ten that is not above a positive fraction below one, found
-- among the first `limit` negative ones.
def magnitudeBelowOne (ratio : Ratio) : Nat → Nat → Int
  | 0, places => -(places : Int)
  | limit + 1, places =>
    if ratio.den ≤ ratio.num * Nat.pow 10 places then -(places : Int)
    else magnitudeBelowOne ratio limit (places + 1)

-- The exponent of the largest power of ten that is not above a positive fraction.
def magnitude (ratio : Ratio) : Int :=
  if ratio.den ≤ ratio.num then ((Nat.toDigits 10 (ratio.num / ratio.den)).length : Int) - 1
  else ratio.magnitudeBelowOne 400 1

end Ratio

namespace BinaryFloat

def ofFields (exponentField fraction : Nat) : BinaryFloat :=
  if exponentField = 0 then ⟨fraction, -1074, false⟩
  else ⟨Nat.pow 2 52 + fraction, (exponentField : Int) - 1075, fraction = 0 && 1 < exponentField⟩

-- Quarters of the gap above are whole numbers here, and so are the ends of the interval of reals
-- that round to the float.
def quarters (value : BinaryFloat) (count : Nat) : Ratio :=
  (Ratio.mk count 1).scale 2 (value.exponent - 2)

def center (value : BinaryFloat) : Ratio := value.quarters (4 * value.mantissa)

def lowerEnd (value : BinaryFloat) : Ratio :=
  value.quarters (4 * value.mantissa - if value.narrowBelow then 1 else 2)

def upperEnd (value : BinaryFloat) : Ratio := value.quarters (4 * value.mantissa + 2)

-- A half-way point rounds to the float with the even mantissa.
def ownsEnds (value : BinaryFloat) : Bool := value.mantissa % 2 = 0

-- How many times `10 ^ unit` goes into the float.
def below (value : BinaryFloat) (unit : Int) : Nat :=
  let center := value.center.scale 10 (-unit)
  center.num / center.den

-- The multiple of `10 ^ unit` that stands for the float, if one of its two neighbours among those
-- multiples reads back as the float.
def onGrid? (value : BinaryFloat) (unit : Int) : Option Nat :=
  let center := value.center.scale 10 (-unit)
  let low := (value.lowerEnd.scale 10 (-unit)).num
  let high := (value.upperEnd.scale 10 (-unit)).num
  let below := value.below unit
  let above := below + 1
  let belowFits := if value.ownsEnds then low ≤ below * center.den else low < below * center.den
  let aboveFits := if value.ownsEnds then above * center.den ≤ high else above * center.den < high
  if belowFits && aboveFits then
    if above * center.den - center.num ≤ center.num - below * center.den then some above
    else some below
  else if belowFits then some below
  else if aboveFits then some above
  else none

-- Tries ever finer grids. Seventeen digits tell any two floats apart, so the search ends there.
def shortestFrom (value : BinaryFloat) (magnitude : Int) : Nat → Nat → Decimal
  | 0, count =>
    let unit := magnitude + 1 - (count : Int)
    ⟨value.below unit, unit⟩
  | limit + 1, count =>
    let unit := magnitude + 1 - (count : Int)
    match value.onGrid? unit with
    | some digits => ⟨digits, unit⟩
    | none => shortestFrom value magnitude limit (count + 1)

def shortest (value : BinaryFloat) : Decimal := value.shortestFrom value.center.magnitude 17 1

end BinaryFloat

structure FloatFormat where
  -- least power of ten written positionally
  leastPositional : Int
  -- least power of ten above that is written with an exponent again
  positionalEnd : Int
  nan : String
  infinity : String
  exponentMark : String

def FloatFormat.listing : FloatFormat where
  leastPositional := -4
  positionalEnd := 16
  nan := "NaN"
  infinity := "inf"
  exponentMark := "e"

namespace Decimal

def positional (digits : String) (power : Int) : String :=
  let count := digits.length
  if power < 0 then
    "0." ++ String.ofList (List.replicate (-power - 1).toNat '0') ++ digits
  else
    let whole := power.toNat + 1
    if count ≤ whole then digits ++ String.ofList (List.replicate (whole - count) '0') ++ ".0"
    else String.ofList (digits.toList.take whole) ++ "." ++ String.ofList (digits.toList.drop whole)

def scientific (format : FloatFormat) (digits : String) (power : Int) : String :=
  let fraction := String.ofList (digits.toList.drop 1)
  String.ofList (digits.toList.take 1) ++ (if fraction.isEmpty then "" else "." ++ fraction)
    ++ format.exponentMark ++ toString power

def text (format : FloatFormat) (value : Decimal) : String :=
  let all := Nat.toDigits 10 value.digits
  let digits := String.ofList (all.reverse.dropWhile (· == '0')).reverse
  let power := value.exponent + (all.length : Int) - 1
  if format.leastPositional ≤ power && power < format.positionalEnd then positional digits power
  else scientific format digits power

end Decimal

def FloatFormat.text (format : FloatFormat) (bits : UInt64) : String :=
  let pattern := bits.toNat
  let exponentField := pattern / Nat.pow 2 52 % Nat.pow 2 11
  let fraction := pattern % Nat.pow 2 52
  let sign := if pattern / Nat.pow 2 63 = 1 then "-" else ""
  if exponentField = 2047 then
    if fraction = 0 then sign ++ format.infinity else format.nan
  else if exponentField = 0 && fraction = 0 then sign ++ "0.0"
  else sign ++ (BinaryFloat.ofFields exponentField fraction).shortest.text format

end CallLowering
