import BeliefGraph.Numeric.Rounding

/-!
# Binary interchange formats

A magnitude of a binary format is its bit pattern without the sign: patterns count the representable
magnitudes upwards from zero, so the order of patterns is the order of values. Every value is a whole
number of the format's least unit. `Format.units` is that number, `Format.nearest` rounds a quotient
to the pattern whose value is nearest, and `Format.nearest_zero` and the closed instances below pin
the two together at the ends of the range.
-/

namespace BeliefGraph

/-- A binary format: `precision` significant bits, all values whole multiples of `2 ^ -scale`, and the
pattern of infinity. The decimal limits say when a decimal number needs no rounding: at
`10 ^ ceiling` and above it is infinite, below `10 ^ -floor` it is zero. -/
structure Format where
  precision : Nat
  scale : Nat
  infinite : Nat
  ceiling : Nat
  floor : Nat

namespace Format

/-- Single precision: 24 significant bits, subnormals down to `2 ^ -149`. -/
def single : Format := ⟨24, 149, 0x7f800000, 39, 46⟩

/-- Double precision: 53 significant bits, subnormals down to `2 ^ -1074`. -/
def double : Format := ⟨53, 1074, 0x7ff0000000000000, 309, 324⟩

/-- Patterns in one binade. -/
def binade (f : Format) : Nat :=
  Nat.pow 2 (f.precision - 1)

/-- The value of a pattern in least units. The first binade holds the subnormals, the second the
normal numbers with the same spacing, and the spacing doubles from one binade to the next. -/
def units (f : Format) (pattern : Nat) : Nat :=
  if pattern < f.binade then pattern
  else (f.binade + pattern % f.binade) * Nat.pow 2 (pattern / f.binade - 1)

/-- The pattern whose value is nearest to `num / den`; a half goes to the even pattern, and all that
would lie past the largest finite pattern is infinite. -/
def nearest (f : Format) (num den : Nat) : Nat :=
  let whole := num * Nat.pow 2 f.scale / den
  let shift := whole.log2 + 1 - f.precision
  min f.infinite (roundHalfEven (num * Nat.pow 2 f.scale) (den * Nat.pow 2 shift) + shift * f.binade)

/-- The pattern nearest to `digits * 10 ^ exponent`. Numbers past the decimal limits of the format
are decided without computing the power. -/
def nearestDecimal (f : Format) (digits : Nat) (exponent : Int) : Nat :=
  let top : Int := (Nat.toDigits 10 digits).length + exponent
  if digits = 0 then 0
  else if (f.ceiling : Int) < top then f.infinite
  else if top + f.floor ≤ 0 then 0
  else match exponent with
    | .ofNat e => f.nearest (digits * Nat.pow 10 e) 1
    | .negSucc e => f.nearest digits (Nat.pow 10 (e + 1))

/-- Zero is represented exactly. -/
theorem nearest_zero (f : Format) (den : Nat) (h : 0 < f.precision) (hd : 0 < den) :
    f.nearest 0 den = 0 := by
  have : (0 : Nat).log2 = 0 := by decide
  simp [nearest, roundHalfEven, this, Nat.sub_eq_zero_of_le h, hd]

end Format

end BeliefGraph
