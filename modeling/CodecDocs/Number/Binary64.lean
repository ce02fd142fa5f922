import CodecDocs.Number.Power

/-! Binary floating-point numbers of 64 bits, kept as their bit pattern. A finite number is
`significand * 2 ^ unitExponent` up to sign; arithmetic is exact on natural numbers and rounds once,
to the nearest number, a half to the even neighbour. -/

namespace CodecDocs

structure Binary64 where
  bits : UInt64
  deriving DecidableEq, Inhabited

namespace Binary64

def ofWord (n : Nat) : Binary64 := ⟨UInt64.ofNat n⟩

def word (x : Binary64) : Nat := x.bits.toNat

/-! ### Fields -/

def isNegative (x : Binary64) : Bool := decide (twoTo 63 ≤ x.word)

/-- The bit pattern without the sign; it grows with the absolute value. -/
def magnitude (x : Binary64) : Nat := x.word % twoTo 63

/-- The magnitude of the infinities; larger ones belong to no number. -/
def infiniteMagnitude : Nat := 2047 * twoTo 52

def isFinite (x : Binary64) : Bool := decide (x.magnitude < infiniteMagnitude)

def isNaN (x : Binary64) : Bool := decide (infiniteMagnitude < x.magnitude)

def isZero (x : Binary64) : Bool := x.magnitude == 0

def significand (x : Binary64) : Nat :=
  if x.magnitude < twoTo 52 then x.magnitude else x.magnitude % twoTo 52 + twoTo 52

/-- The weight of the significand's last place, as a power of two. -/
def unitExponent (x : Binary64) : Int := max 1 (x.magnitude / twoTo 52 : Nat) - 1075

def infinity (negative : Bool) : Binary64 :=
  ofWord ((if negative then twoTo 63 else 0) + infiniteMagnitude)

def nan : Binary64 := ofWord (infiniteMagnitude + twoTo 51)

def zero (negative : Bool) : Binary64 := ofWord (if negative then twoTo 63 else 0)

def neg (x : Binary64) : Binary64 :=
  ofWord (if x.isNegative then x.magnitude else x.magnitude + twoTo 63)

/-- Equality of values: both zeros are equal, and so are all patterns that are no number. -/
def same (x y : Binary64) : Bool :=
  (x.isNaN && y.isNaN) || (x.isZero && y.isZero) || x == y

/-! ### Rounding -/

/-- The natural number nearest to `num / den`, a half going to the even one. -/
def roundHalfEven (num den : Nat) : Nat :=
  let quotient := num / den
  let twice := 2 * (num % den)
  if twice < den ∨ (twice = den ∧ quotient % 2 = 0) then quotient else quotient + 1

/-- The greatest `k` with `2 ^ k ≤ num / den`, for a positive quotient. -/
def floorLog2 (num den : Nat) : Int :=
  let k : Int := (num.log2 : Int) - (den.log2 : Int)
  if den * twoTo k.toNat ≤ num * twoTo (-k).toNat then k else k - 1

/-- The number nearest to `num / den`; past the largest finite number it is an infinity. -/
def ofRatio (negative : Bool) (num den : Nat) : Binary64 :=
  let sign := if negative then twoTo 63 else 0
  if num = 0 then ofWord sign
  else
    let unit := max (-1074) (floorLog2 num den - 52)
    let places := roundHalfEven (num * twoTo (-unit).toNat) (den * twoTo unit.toNat)
    ofWord (sign + min infiniteMagnitude ((unit + 1074).toNat * twoTo 52 + places))

def ofNat (n : Nat) : Binary64 := ofRatio false n 1

/-- The number nearest to `digits * 10 ^ exponent`. Exponents far outside the range are settled
without forming the power. -/
def ofDecimal (negative : Bool) (digits : Nat) (exponent : Int) : Binary64 :=
  if digits = 0 then zero negative
  else if 310 ≤ exponent then infinity negative
  else if (digits.log2 / 3 + 1 : Nat) + exponent < -330 then zero negative
  else ofRatio negative (digits * tenTo exponent.toNat) (tenTo (-exponent).toNat)

/-! ### Arithmetic on finite numbers -/

def mul (x y : Binary64) : Binary64 :=
  let unit := x.unitExponent + y.unitExponent
  ofRatio (x.isNegative != y.isNegative)
    (x.significand * y.significand * twoTo unit.toNat) (twoTo (-unit).toNat)

/-- The quotient by a number other than zero. -/
def div (x y : Binary64) : Binary64 :=
  let unit := x.unitExponent - y.unitExponent
  ofRatio (x.isNegative != y.isNegative)
    (x.significand * twoTo unit.toNat) (y.significand * twoTo (-unit).toNat)

def abs (x : Binary64) : Binary64 := ofWord x.magnitude

/-! ### Integers -/

/-- The integer part of the absolute value of a finite number. -/
def wholePart (x : Binary64) : Nat :=
  x.significand * twoTo x.unitExponent.toNat / twoTo (-x.unitExponent).toNat

def isInteger (x : Binary64) : Bool :=
  x.isFinite &&
    x.significand * twoTo x.unitExponent.toNat % twoTo (-x.unitExponent).toNat == 0

/-- The integer part, held to the range of 64-bit integers; zero for what is no number. -/
def toInt64 (x : Binary64) : Int :=
  if x.isNaN then 0
  else if x.isNegative then
    max (-(twoTo 63 : Int)) (if x.isFinite then -(x.wholePart : Int) else -(twoTo 63 : Int))
  else min ((twoTo 63 : Int) - 1) (if x.isFinite then (x.wholePart : Int) else twoTo 63)

end Binary64

end CodecDocs
