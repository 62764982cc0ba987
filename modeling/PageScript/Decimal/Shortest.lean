import PageScript.Decimal.Double

/-! The shortest decimal that is read back as a number. -/

namespace PageScript

structure Numeral where
  digits : List Char
  exponent : Int
  deriving DecidableEq, Repr

namespace Numeral

def leadingExponent (significand : Nat) (power : Int) : Int :=
  if 0 ≤ power then
    ((Nat.toDigits 10 (significand * Nat.pow 2 power.toNat)).length : Int) - 1
  else
    let scaled := significand * Nat.pow 10 350 / Nat.pow 2 (-power).toNat
    ((Nat.toDigits 10 scaled).length : Int) - 351

/-- The whole number of units `10 ^ unit` that reads back as `significand * 2 ^ power`, if there is
one: the nearer of the two neighbours inside the interval of numbers that round to it. -/
def onGrid? (significand : Nat) (power : Int) (narrowBelow : Bool) (unit : Int) : Option Nat :=
  let scale := Nat.pow 2 power.toNat * Nat.pow 10 (-unit).toNat
  let base := Nat.pow 2 (-power).toNat * Nat.pow 10 unit.toNat
  let lower := significand * scale / base
  let below := (4 * significand - if narrowBelow then 1 else 2) * scale
  let above := (4 * significand + 2) * scale
  let inside (candidate : Nat) : Bool :=
    let place := 4 * candidate * base
    if significand % 2 = 0 then below ≤ place && place ≤ above else below < place && place < above
  let remainder := significand * scale - lower * base
  if inside lower && inside (lower + 1) then
    if 2 * remainder < base then some lower
    else if base < 2 * remainder then some (lower + 1)
    else some (if lower % 2 = 0 then lower else lower + 1)
  else if inside lower then some lower
  else if inside (lower + 1) then some (lower + 1)
  else none

def firstGrid (significand : Nat) (power : Int) (narrowBelow : Bool) (leading : Int) :
    Nat → Nat → Nat × Int
  | 0, count => (0, leading - count + 1)
  | tries + 1, count =>
      let unit := leading - count + 1
      match onGrid? significand power narrowBelow unit with
      | some value => (value, unit)
      | none => firstGrid significand power narrowBelow leading tries (count + 1)

def shortest (x : Double) : Numeral :=
  let narrowBelow := x.fractionField == 0 && 1 < x.exponentField
  let leading := leadingExponent x.significand x.power
  let (value, unit) := firstGrid x.significand x.power narrowBelow leading 17 1
  let digits := Nat.toDigits 10 value
  let trimmed := (digits.reverse.dropWhile (· == '0')).reverse
  { digits := trimmed, exponent := unit + digits.length - 1 }

/-- How a numeral is laid out: the exponents written without one, and whether a whole number keeps a
fraction. -/
structure Layout where
  lowest : Int
  highest : Int
  fraction : Bool

def positional (layout : Layout) (numeral : Numeral) : List Char :=
  let count : Int := numeral.digits.length
  if numeral.exponent < 0 then
    "0.".toList ++ List.replicate (-numeral.exponent - 1).toNat '0' ++ numeral.digits
  else if count ≤ numeral.exponent + 1 then
    numeral.digits ++ List.replicate (numeral.exponent + 1 - count).toNat '0' ++
      (if layout.fraction then ".0".toList else [])
  else
    let whole := (numeral.exponent + 1).toNat
    numeral.digits.take whole ++ ['.'] ++ numeral.digits.drop whole

def scientific (numeral : Numeral) : List Char :=
  let mantissa :=
    match numeral.digits with
    | [] => ['0']
    | [digit] => [digit]
    | digit :: more => digit :: '.' :: more
  let sign := if numeral.exponent < 0 then '-' else '+'
  mantissa ++ ['e', sign] ++ Nat.toDigits 10 numeral.exponent.natAbs

def write (layout : Layout) (numeral : Numeral) : List Char :=
  if layout.lowest ≤ numeral.exponent ∧ numeral.exponent ≤ layout.highest then
    positional layout numeral
  else scientific numeral

end Numeral

end PageScript
