/-!
# Binary floating point of 64 bits

A double-precision number is kept as its IEEE 754 bits.  `Binary64.ofRatio` rounds a quotient of
natural numbers to the nearest such number, a tie to the one with the even significand.  All
computation is exact.
-/

namespace GraphQL

/-- A double-precision number, as its IEEE 754 bits. -/
structure Binary64 where
  /-- The bits. -/
  bits : UInt64
  deriving DecidableEq, Repr

namespace Binary64

/-- The bit of the sign. -/
def signBit : Nat := 1 <<< 63

/-- The least bit of the exponent; the bits below are the significand's. -/
def exponentUnit : Nat := 1 <<< 52

/-- The bits of positive infinity. -/
def infinityBits : Nat := 0x7FF * exponentUnit

/-- The number with the given sign and bits of the absolute value. -/
def ofMagnitude (negative : Bool) (bits : Nat) : Binary64 :=
  ⟨UInt64.ofNat (bits + if negative then signBit else 0)⟩

/-- Zero with a sign. -/
def zero (negative : Bool) : Binary64 := ofMagnitude negative 0

/-- Infinity with a sign. -/
def infinity (negative : Bool) : Binary64 := ofMagnitude negative infinityBits

/-- A value that is no number. -/
def nan : Binary64 := ofMagnitude false (infinityBits + (1 <<< 51))

/-- Whether the value is no number. -/
def isNaN (x : Binary64) : Bool := x.bits.toNat % signBit > infinityBits

/-- The natural number nearest to a quotient; a tie goes to the even one. -/
def roundQuotient (num den : Nat) : Nat :=
  let q := num / den
  let r := num % den
  if 2 * r < den then q
  else if 2 * r > den then q + 1
  else q + q % 2

/-- The largest integer `e` with `2 ^ e ≤ num / den`, for positive numbers. -/
def floorLog2 (num den : Nat) : Int :=
  let e : Int := (num.log2 : Int) - (den.log2 : Int)
  if den <<< e.toNat ≤ num <<< (-e).toNat then e else e - 1

/-- The bits of the nearest number to a quotient of positive numbers.  The unit in the last place
is `2 ^ q`; as a significand that is rounded up to the next power of two carries into the
exponent, the bits of the exponent and the significand are added. -/
def magnitudeBits (num den : Nat) : Nat :=
  let q := max (floorLog2 num den - 52) (-1074)
  let significand := roundQuotient (num <<< (-q).toNat) (den <<< q.toNat)
  min ((q + 1074).toNat * exponentUnit + significand) infinityBits

/-- The number nearest to a quotient. -/
def ofRatio (negative : Bool) (num den : Nat) : Binary64 :=
  if num = 0 then zero negative else ofMagnitude negative (magnitudeBits num den)

end Binary64

end GraphQL
