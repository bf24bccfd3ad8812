import BeliefGraph.Proofs.Numeric.Packing

/-!
# Parts of whole numbers in double precision

A whole number of 32 bits has a double-precision value of its own (`hasValue_toFloat`). A part of it is a
product with a number of the unit interval, rounded once (`HasValue.mul`), and then cut at the point
(`HasValue.toNat_toUInt32`). What has no value is no number or lies to one side of all values
(`value_cases`).
-/

namespace BeliefGraph.Double

open Floating Float.Model Float.Model.UnpackedFloat

/-- The value of a double-precision number that has one and is not below zero. -/
def HasValue (x : Float) (v : ℚ) : Prop :=
  Shows .binary64 x.toModel.unpack v

/-- The leading bit of a double-precision significand has 52 bits below it. -/
theorem lead_binary64 : lead .binary64 = 2 ^ 52 := rfl

/-- The largest power of two. -/
theorem top_binary64 : ((lead .binary64 : ℕ) : ℚ) * 2 ^ topExponent .binary64 = 2 ^ 1023 := by
  have htop : topExponent .binary64 = (971 : ℕ) := rfl
  rw [lead_binary64, htop, zpow_natCast, Nat.cast_pow, Nat.cast_ofNat, ← pow_add]

/-- Packing a rounded result that is not too large keeps its value. -/
theorem exists_hasValue_pack {x : UnpackedFloat} {v : ℚ}
    (h : ∃ w, Shows .binary64 x w ∧ Rounds .binary64 v w) (hv : v ≤ 2 ^ 1023) :
    ∃ w, HasValue (.ofModel (.pack x)) w ∧ Rounds .binary64 v w :=
  exists_shows_pack (by decide) h (by rwa [top_binary64])

/-- The literal zero has the value zero. -/
theorem hasValue_zero : HasValue 0 0 := Shows.zero .positive

/-- The literal one has the value one. -/
theorem hasValue_one : HasValue 1 1 := by
  have h : (1 : Float).toModel.unpack = .finite .positive (2 ^ 52) (-52) (by decide) := rfl
  have hshows := shows_of_unpack h
  norm_num at hshows
  exact hshows

/-- Every whole number of 32 bits is a double-precision number. -/
theorem hasValue_toFloat (n : UInt32) : HasValue n.toFloat n.toNat := by
  have hlt : n.toNat < 2 ^ 32 := n.toNat_lt
  obtain ⟨w, hshows, hrounds⟩ := exists_shows_normalize .binary64 (Int.natCast_nonneg n.toNat) 0
  rw [zpow_zero, mul_one, Int.cast_natCast] at hrounds
  -- a word fits into the 53 bits of a significand, so that neither rounding changes it
  obtain rfl := hrounds.eq_of_representable
    (representable_natCast (hlt.trans (by rw [lead_binary64]; decide)))
  have hle : (n.toNat : ℚ) ≤ 2 ^ 1023 :=
    calc (n.toNat : ℚ) ≤ 2 ^ 32 := by exact_mod_cast hlt.le
      _ ≤ 2 ^ 1023 := pow_le_pow_right₀ (by norm_num) (by decide)
  obtain ⟨w, hvalue, hrounds'⟩ := exists_hasValue_pack ⟨_, hshows, hrounds⟩ hle
  rwa [hrounds'.eq_of_representable hshows.representable] at hvalue

variable {x y : Float} {v w : ℚ}

/-- Double-precision numbers are ordered as their unpacked forms compare. -/
theorem le_iff_compare : x ≤ y ↔ (x.toModel.unpack.compare y.toModel.unpack).any (·.isLE) = true := by
  show decide (x.toModel ≤ y.toModel) = true ↔ _
  rw [decide_eq_true_iff]
  rfl

/-- The strict order of double-precision numbers is that of their unpacked forms. -/
theorem lt_iff_compare : x < y ↔ (x.toModel.unpack.compare y.toModel.unpack == some .lt) = true := by
  show decide (x.toModel < y.toModel) = true ↔ _
  rw [decide_eq_true_iff]
  rfl

/-- A double-precision number is no number, has a value, or lies to one side of all values. -/
theorem value_cases (x : Float) :
    x.toModel.unpack.isNaN = true ∨ (∃ v, HasValue x v) ∨ IsBelow .binary64 x.toModel.unpack ∨
      IsAbove .binary64 x.toModel.unpack :=
  unpack_cases _

/-- What is no number is neither above nor below another one. -/
theorem not_le_of_isNaN (h : x.toModel.unpack.isNaN = true) (y : Float) : ¬ x ≤ y ∧ ¬ y ≤ x := by
  rw [le_iff_compare, le_iff_compare, (compare_of_isNaN h _).1, (compare_of_isNaN h _).2]
  exact ⟨Bool.false_ne_true, Bool.false_ne_true⟩

/-- What is below all values is less than each number that has one. -/
theorem lt_of_isBelow (h : IsBelow .binary64 x.toModel.unpack) (hy : HasValue y w) :
    x < y ∧ ¬ y ≤ x := by
  rw [lt_iff_compare, le_iff_compare, (h hy).1, (h hy).2]
  exact ⟨rfl, Bool.false_ne_true⟩

/-- What is above all values is greater than each number that has one. -/
theorem lt_of_isAbove (h : IsAbove .binary64 x.toModel.unpack) (hy : HasValue y w) :
    y < x ∧ y ≤ x ∧ ¬ x < y ∧ ¬ x ≤ y := by
  rw [lt_iff_compare, le_iff_compare, lt_iff_compare, le_iff_compare, (h hy).1, (h hy).2]
  exact ⟨rfl, rfl, Bool.false_ne_true, Bool.false_ne_true⟩

namespace HasValue

/-- Values are not below zero. -/
theorem nonneg (h : HasValue x v) : 0 ≤ v := Shows.nonneg h

/-- What has a value is a number. -/
theorem isNaN (h : HasValue x v) : x.isNaN = false := by
  show x.toModel.unpack.isNaN = false
  unfold HasValue at h
  generalize x.toModel.unpack = u at h
  cases h <;> rfl

/-- A product that is not too large is the rounded product of the values. -/
theorem mul (hx : HasValue x v) (hy : HasValue y w) (hle : v * w ≤ 2 ^ 1023) :
    ∃ r, HasValue (x * y) r ∧ Rounds .binary64 (v * w) r :=
  exists_hasValue_pack (Shows.mul hx hy) hle

/-- A difference that is not below zero is the rounded difference of the values. -/
theorem sub (hx : HasValue x v) (hy : HasValue y w) (hwv : w ≤ v) (hle : v - w ≤ 2 ^ 1023) :
    ∃ r, HasValue (x - y) r ∧ Rounds .binary64 (v - w) r :=
  exists_hasValue_pack (Shows.sub hx hy hwv) hle

/-- Numbers that have values are ordered as these are. -/
theorem le_iff (hx : HasValue x v) (hy : HasValue y w) : x ≤ y ↔ v ≤ w :=
  le_iff_compare.trans (isLE_compare_iff hx hy)

/-- The strict order of numbers that have values is that of the values. -/
theorem lt_iff (hx : HasValue x v) (hy : HasValue y w) : x < y ↔ v < w :=
  lt_iff_compare.trans (isLT_compare_iff hx hy)

/-- Conversion to a whole number that there is room for drops what is behind the point. -/
theorem toNat_toUInt32 (h : HasValue x v) (hv : v < 2 ^ 32) : x.toUInt32.toNat = ⌊v⌋₊ := by
  have hroom : ⌊v⌋₊ < UInt32.size := (Nat.floor_lt h.nonneg).mpr (by exact_mod_cast hv)
  have hnat : (x.toModel.unpack.toInt 0 (UInt32.size - 1)).toNat = ⌊v⌋₊ := by
    rw [Shows.toInt_eq_floor h, Int.floor_toNat]
  show (UInt32.ofNatClamp (x.toModel.unpack.toInt 0 (UInt32.size - 1)).toNat).toNat = _
  rw [hnat, UInt32.ofNatClamp, dif_pos hroom, UInt32.toNat_ofNatLT]

end HasValue

end BeliefGraph.Double
