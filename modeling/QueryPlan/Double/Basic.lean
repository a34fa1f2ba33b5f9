/-!
# Doubles by their bit pattern

A `Double` is the 64-bit pattern of a binary floating-point number: one sign bit, eleven exponent
bits and fifty-two fraction bits. Plans only hold, compare and print doubles, so the pattern is all
that is kept. `Double.same` is the comparison of the number, not of the pattern: a NaN differs from
itself and the two zeros agree.
-/

namespace QueryPlan

/-- A binary floating-point number of 64 bits, given by its bit pattern. -/
structure Double where
  bits : UInt64
deriving DecidableEq, Inhabited

namespace Double

/-- The fifty-two fraction bits. -/
def fraction (x : Double) : Nat := (x.bits &&& 0xfffffffffffff).toNat

/-- The eleven exponent bits, as stored. -/
def exponent (x : Double) : Nat := (x.bits >>> 52 &&& 0x7ff).toNat

/-- The sign bit is set. -/
def isNegative (x : Double) : Bool := x.bits >>> 63 == 1

/-- All exponent bits are set and the fraction is not zero. -/
def isNaN (x : Double) : Bool := x.exponent == 2047 && x.fraction != 0

/-- All exponent bits are set and the fraction is zero. -/
def isInfinite (x : Double) : Bool := x.exponent == 2047 && x.fraction == 0

/-- Zero of either sign. -/
def isZero (x : Double) : Bool := x.exponent == 0 && x.fraction == 0

/-- Equality of the numbers: never with a NaN, and the sign of a zero does not count. -/
def same (x y : Double) : Bool :=
  !x.isNaN && !y.isNaN && (x == y || (x.isZero && y.isZero))

end Double

end QueryPlan
