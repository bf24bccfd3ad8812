import BeliefGraph.Numeric.Binary
import BeliefGraph.Numeric.Decimal

/-!
# Single-precision numbers as text

A single-precision number is written with the fewest decimal digits that read back to it, always
positionally, and read with one rounding to the nearest. The writer looks for the digits on decimal
grids of falling spacing: the first grid that has a point among the reals rounding to the number
gives them, so no shorter text reads back. The interval of those reals and the grids are exact
natural numbers; no arithmetic of floating point takes part.
-/

namespace BeliefGraph.Single

/-- Whether the sign bit is set. -/
def isNegative (x : Float32) : Bool :=
  decide (0x80000000 ≤ x.toBits.toNat)

/-- The bit pattern without the sign. -/
def magnitude (x : Float32) : Nat :=
  x.toBits.toNat % 0x80000000

/-- The number with a given sign and magnitude. -/
def ofMagnitude (negative : Bool) (pattern : Nat) : Float32 :=
  Float32.ofBits (UInt32.ofNat (if negative then 0x80000000 + pattern else pattern))

def notANumber : Float32 := ofMagnitude false (Format.single.infinite + 1)

/-- The number nearest to `digits * 10 ^ exponent`. -/
def ofDecimal (negative : Bool) (d : Decimal) : Float32 :=
  ofMagnitude negative (Format.single.nearestDecimal d.digits d.exponent)

/-- The number nearest to a whole number. -/
def ofInt (n : Int) : Float32 :=
  ofMagnitude (decide (n < 0)) (Format.single.nearest n.natAbs 1)

/-- The number nearest to a double-precision one. -/
def ofDouble (x : Float) : Float32 :=
  if x.isNaN then notANumber
  else
    let bits := x.toBits.toNat
    ofMagnitude (decide (0x8000000000000000 ≤ bits))
      (Format.single.nearest (Format.double.units (bits % 0x8000000000000000)) (Nat.pow 2 Format.double.scale))

/-! ## Writing -/

/-- The reals that round to a finite pattern, and the value itself, in half units: the ends are the
midpoints to the neighbouring patterns. -/
structure Neighbourhood where
  low : Nat
  value : Nat
  high : Nat

def Neighbourhood.ofPattern (pattern : Nat) : Neighbourhood :=
  let here := Format.single.units pattern
  ⟨Format.single.units (pattern - 1) + here, 2 * here, here + Format.single.units (pattern + 1)⟩

/-- Whether `a` lies in front of `b`; at an even pattern the ends of the interval belong to it. -/
def within (even : Bool) (a b : Nat) : Bool :=
  if even then decide (a ≤ b) else decide (a < b)

/-- Decimal grids are counted upwards from spacing `10 ^ -149`, on which every number lies. -/
def finestPlace : Nat := 149

/-- The point of the grid with spacing `10 ^ (place - 149)` that is nearest to the value among those
that round to the pattern, as a multiple of the spacing. Of two equally near points the larger
one is taken. -/
def gridPoint? (even : Bool) (n : Neighbourhood) (place : Nat) : Option Nat :=
  let halfUnit := Nat.pow 10 finestPlace
  let spacing := Nat.pow 2 (Format.single.scale + 1) * Nat.pow 10 place
  let below := n.value * halfUnit / spacing
  let belowFits := within even (n.low * halfUnit) (below * spacing)
  let aboveFits := within even ((below + 1) * spacing) (n.high * halfUnit)
  if belowFits && aboveFits then
    some (if 2 * (n.value * halfUnit) < (2 * below + 1) * spacing then below else below + 1)
  else if belowFits then some below
  else if aboveFits then some (below + 1)
  else none

/-- The first point found on the grids from a place downwards. -/
def shortestFrom (even : Bool) (n : Neighbourhood) : Nat → Decimal
  | 0 => ⟨n.value * Nat.pow 10 finestPlace / Nat.pow 2 (Format.single.scale + 1), -(finestPlace : Int)⟩
  | place + 1 =>
    match gridPoint? even n (place + 1) with
    | some digits => ⟨digits, (place + 1 : Int) - finestPlace⟩
    | none => shortestFrom even n place

/-- The shortest decimal number that reads back to a finite pattern. -/
def shortest (pattern : Nat) : Decimal :=
  if pattern = 0 then ⟨0, 0⟩
  else shortestFrom (pattern % 2 == 0) (Neighbourhood.ofPattern pattern) (finestPlace + 39)

/-- A sign in front of the text of a magnitude; the one text of a NaN has none. -/
def written (x : Float32) (finite : Nat → List Char) : List Char :=
  if magnitude x > Format.single.infinite then "NaN".toList
  else
    let text := if magnitude x = Format.single.infinite then "inf".toList else finite (magnitude x)
    if isNegative x then '-' :: text else text

/-- The shortest text that reads back. -/
def chars (x : Float32) : List Char :=
  written x fun pattern => (shortest pattern).positional

/-- The text with a fixed number of decimal places; a half goes to the even digit. -/
def fixedChars (places : Nat) (x : Float32) : List Char :=
  written x fun pattern => Decimal.withPoint
    (roundHalfEven (Format.single.units pattern * Nat.pow 10 places) (Nat.pow 2 Format.single.scale)) places

def text (x : Float32) : String :=
  String.ofList (chars x)

def fixed (places : Nat) (x : Float32) : String :=
  String.ofList (fixedChars places x)

/-! ## Reading -/

/-- The words for the two values that have no digits, in any case. -/
def readWord (negative : Bool) (cs : List Char) : Option Float32 :=
  let word := String.ofList (cs.map Char.toLower)
  if word = "inf" || word = "infinity" then some (ofMagnitude negative Format.single.infinite)
  else if word = "nan" then some notANumber
  else none

/-- A number after its sign. -/
def readUnsigned (negative : Bool) (cs : List Char) : Option Float32 :=
  match Decimal.read cs with
  | some d => some (ofDecimal negative d)
  | none => readWord negative cs

inductive ReadError
  | empty
  | invalid
  deriving DecidableEq, Repr

def ReadError.message : ReadError → String
  | .empty => "cannot parse float from empty string"
  | .invalid => "invalid float literal"

/-- Reads a number with an optional sign. -/
def read (cs : List Char) : Except ReadError Float32 :=
  match cs with
  | [] => .error .empty
  | c :: rest =>
    let parsed :=
      if c = '-' then readUnsigned true rest
      else if c = '+' then readUnsigned false rest
      else readUnsigned false cs
    match parsed with
    | some x => .ok x
    | none => .error .invalid

end BeliefGraph.Single
