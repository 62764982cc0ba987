/-! Floating-point numbers by their bits. -/

namespace PageScript

structure Double where
  bits : UInt64
  deriving DecidableEq, Repr, Inhabited

namespace Double

def toFloat (x : Double) : Float :=
  Float.ofBits x.bits

def ofFloat (x : Float) : Double :=
  ⟨x.toBits⟩

def negative (x : Double) : Bool :=
  x.bits >>> 63 == 1

def exponentField (x : Double) : Nat :=
  ((x.bits >>> 52) &&& 0x7ff).toNat

def fractionField (x : Double) : Nat :=
  (x.bits &&& 0xfffffffffffff).toNat

def isFinite (x : Double) : Bool :=
  x.exponentField != 0x7ff

def isNaN (x : Double) : Bool :=
  x.exponentField == 0x7ff && x.fractionField != 0

def isZero (x : Double) : Bool :=
  x.exponentField == 0 && x.fractionField == 0

/-- The whole number `significand` of the magnitude `significand * 2 ^ power` of a finite number. -/
def significand (x : Double) : Nat :=
  if x.exponentField == 0 then x.fractionField else x.fractionField + Nat.pow 2 52

def power (x : Double) : Int :=
  if x.exponentField == 0 then -1074 else (x.exponentField : Int) - 1075

/-- The nearest number to `digits * 10 ^ exponent`, ties to even. Exponents beyond the range of
binary64 are answered directly, as infinity or zero. -/
def ofDecimal (negative : Bool) (digits : Nat) (exponent : Int) : Double :=
  let size : Int := (Nat.toDigits 10 digits).length
  let magnitude : Float :=
    if digits = 0 ∨ exponent + size < -400 then 0.0
    else if exponent + size > 400 then Float.ofBits 0x7ff0000000000000
    else if exponent < 0 then Float.ofScientific digits true exponent.natAbs
    else Float.ofScientific digits false exponent.natAbs
  ofFloat (if negative then -magnitude else magnitude)

def toInt? (x : Double) : Option Int :=
  if x.isFinite then
    let magnitude : Option Nat :=
      if 0 ≤ x.power then some (x.significand * Nat.pow 2 x.power.toNat)
      else
        let scale := Nat.pow 2 (-x.power).toNat
        if x.significand % scale = 0 then some (x.significand / scale) else none
    magnitude.map fun n => if x.negative then -(n : Int) else (n : Int)
  else none

end Double

end PageScript
