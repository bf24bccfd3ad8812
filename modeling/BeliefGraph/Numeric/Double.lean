import BeliefGraph.Numeric.Binary
import BeliefGraph.Numeric.Decimal

/-!
# Double-precision numbers

Conversion to double precision rounds once, to the nearest number.
-/

namespace BeliefGraph.Double

/-- The number with a given sign and bit pattern. -/
def ofMagnitude (negative : Bool) (pattern : Nat) : Float :=
  Float.ofBits (UInt64.ofNat (if negative then 0x8000000000000000 + pattern else pattern))

def infinity (negative : Bool) : Float := ofMagnitude negative Format.double.infinite

def notANumber : Float := ofMagnitude false (Format.double.infinite + 1)

/-- The number nearest to a natural number. -/
def ofNat (n : Nat) : Float :=
  ofMagnitude false (Format.double.nearest n 1)

/-- The number nearest to `digits * 10 ^ exponent`. -/
def ofDecimal (negative : Bool) (d : Decimal) : Float :=
  ofMagnitude negative (Format.double.nearestDecimal d.digits d.exponent)

end BeliefGraph.Double
