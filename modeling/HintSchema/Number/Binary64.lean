/-!
# Floating point numbers

A `Binary64` is its 64 bits: a sign, an exponent field of 11 bits and a fraction field of 52.  Every
finite magnitude is a whole multiple of the least positive number `2 ^ -1074`; `units` is that
multiple, so comparing, rounding and truncating are exact arithmetic on natural numbers.
`roundUnits` is the rounding to nearest, ties to even, that `ofInt` and `ofDecimal` share.
-/

namespace HintSchema

/-- A floating point number of 64 bits. -/
structure Binary64 where
  /-- Sign, exponent field and fraction field, from the highest bit down. -/
  bits : UInt64
  deriving DecidableEq, Repr

namespace Binary64

/-- How many of the least positive numbers make one. -/
def unitsPerOne : Nat := Nat.pow 2 1074

/-- How many fractions there are: `2 ^ 52`. -/
def fractions : Nat := 4503599627370496

/-- The weight of the sign bit: `2 ^ 63`. -/
def signWeight : Nat := 9223372036854775808

/-- The bits of positive infinity: an exponent field of ones, and no fraction. -/
def infinityBits : Nat := 2047 * fractions

/-- The bits below the sign. -/
def magnitudeBits (x : Binary64) : Nat := x.bits.toNat % signWeight

/-- The sign bit. -/
def isNegative (x : Binary64) : Bool := signWeight ≤ x.bits.toNat

def isFinite (x : Binary64) : Bool := x.magnitudeBits < infinityBits

def isNaN (x : Binary64) : Bool := infinityBits < x.magnitudeBits

def isZero (x : Binary64) : Bool := x.magnitudeBits = 0

/-- The number with the given sign and the given bits below it. -/
def ofMagnitude (negative : Bool) (bits : Nat) : Binary64 :=
  ⟨UInt64.ofNat (bits + if negative then signWeight else 0)⟩

def nan : Binary64 := ofMagnitude false (infinityBits + fractions / 2)

def infinity (negative : Bool) : Binary64 := ofMagnitude negative infinityBits

/-- The distance in units to the next larger magnitude: one for the subnormal numbers and the first
exponent, doubling with each further exponent. -/
def spacing (x : Binary64) : Nat := Nat.pow 2 (x.magnitudeBits / fractions - 1)

/-- The whole number that is scaled by `spacing`. -/
def significand (x : Binary64) : Nat :=
  let fraction := x.magnitudeBits % fractions
  if x.magnitudeBits < fractions then fraction else fractions + fraction

/-- The magnitude of a finite number as a multiple of the least positive number. -/
def units (x : Binary64) : Nat := x.significand * x.spacing

/-- Equality of numbers: the two zeros are equal, and a NaN equals nothing. -/
def numEq (x y : Binary64) : Bool :=
  !x.isNaN && !y.isNaN && (x.bits == y.bits || (x.isZero && y.isZero))

/-- The quotient `num / den` rounded to the nearest whole number, a tie to the even one. -/
def divHalfEven (num den : Nat) : Nat :=
  let q := num / den
  let r := num % den
  if 2 * r < den then q
  else if den < 2 * r then q + 1
  else if q % 2 = 0 then q else q + 1

/-- The magnitude bits of the number nearest to `num / den` units.  Past the 53 bits of a
significand each further doubling of the spacing adds one to the exponent field, and a
significand that is rounded up to the next power of two carries into it; a magnitude too large
becomes infinity. -/
def roundUnits (num den : Nat) : Nat :=
  let exponent := (num / den).log2 - 52
  min (exponent * fractions + divHalfEven num (den * Nat.pow 2 exponent)) infinityBits

/-- The number nearest to an integer. -/
def ofInt (n : Int) : Binary64 :=
  ofMagnitude (n < 0) (roundUnits (n.natAbs * unitsPerOne) 1)

-- One has the exponent field 1023 and no fraction.
example : ofInt 1 = ⟨0x3ff0000000000000⟩ := by decide +kernel

/-- The number nearest to `± coefficient · 10 ^ exponent`. -/
def ofDecimal (negative : Bool) (coefficient : Nat) (exponent : Int) : Binary64 :=
  ofMagnitude negative <|
    if 0 ≤ exponent then roundUnits (coefficient * Nat.pow 10 exponent.toNat * unitsPerOne) 1
    else roundUnits (coefficient * unitsPerOne) (Nat.pow 10 (-exponent).toNat)

/-- Whether the number is finite and whole. -/
def isIntegral (x : Binary64) : Bool := x.isFinite && x.units % unitsPerOne = 0

/-- The whole number a finite number is truncated to. -/
def truncate (x : Binary64) : Int :=
  let n : Int := x.units / unitsPerOne
  if x.isNegative then -n else n

/-- The truncated number, held at the ends of the signed 64-bit range. -/
def toInt64Clamped (x : Binary64) : Int64 :=
  Int64.ofInt (max (-9223372036854775808) (min 9223372036854775807 x.truncate))

end Binary64

end HintSchema
