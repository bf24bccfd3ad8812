import BeliefGraph.Proofs.Numeric.Packing
import BeliefGraph.Truth

/-!
# Arithmetic of single-precision numbers

Every operation on single-precision numbers with values that are not below zero gives the number
nearest to the exact result, as long as that is at most `2 ^ 127` (`HasValue.add` and so on): packing
loses nothing then (`Floating.unpack_pack`). Comparisons compare values (`HasValue.le_iff`), and the
numbers of the unit interval are exactly those with a value of at most one (`inUnitInterval_iff`).
-/

namespace BeliefGraph

open Float.Model Float.Model.UnpackedFloat

/-! ## Rounding to single precision -/

namespace Floating

/-- The leading bit of a single-precision significand has 23 bits below it. -/
theorem lead_binary32 : lead .binary32 = 2 ^ 23 := rfl

/-- The least unit of single precision is two to the power of -149. -/
theorem minExponent_binary32 : Float.Model.Format.binary32.minExponent = -149 := rfl

/-- Below two the exponent is at most that of the numbers from one to two. -/
theorem Placed.exponent_le {q : ℚ} {e : ℤ} (h : Placed .binary32 q e) (hv : q * 2 ^ e < 2) : e ≤ -23 := by
  by_contra hlt
  have hq : ((2 ^ 23 : ℕ) : ℚ) ≤ q :=
    h.normal_of_lt (e := -23) (by rw [minExponent_binary32]; decide) (by omega)
  have hle : ((2 ^ 23 : ℕ) : ℚ) * 2 ^ e ≤ q * 2 ^ e := mul_le_mul_of_nonneg_right hq (two_zpow_pos e).le
  have htwo := binade_le (Int.not_le.mp hlt) (c := 2 ^ 23) (by norm_num)
  norm_num at htwo hle
  linarith

namespace Rounds

variable {v w : ℚ}

/-- Half a unit above one is a tie, and one is the even side of it. -/
theorem le_one (h : Rounds .binary32 v w) (hle : v ≤ 1 + 2 ^ (-24 : ℤ)) : w ≤ 1 := by
  have htie : Rounds .binary32 (1 + 2 ^ (-24 : ℤ)) 1 := by
    have hplaced : Placed .binary32 (2 ^ 23 + 1 / 2) (-23) := by
      refine ⟨by norm_num, ?_, by rw [minExponent_binary32]; decide, .inr ?_⟩ <;>
        rw [lead_binary32] <;> norm_num
    refine ⟨2 ^ 23 + 1 / 2, 2 ^ 23, -23, hplaced, ⟨by norm_num, by norm_num, fun _ => ⟨2 ^ 22, by norm_num⟩⟩,
      by norm_num, by norm_num⟩
  exact h.mono htie hle

/-- The rounding error below two is at most half a unit in the last place. -/
theorem le_add (h : Rounds .binary32 v w) (hlt : v < 2) : w ≤ v + 2 ^ (-24 : ℤ) := by
  obtain ⟨q, n, e, hplaced, hnear, rfl, rfl⟩ := h
  have he : (2 : ℚ) ^ e ≤ 2 ^ (-23 : ℤ) :=
    zpow_le_zpow_right₀ (by norm_num) (hplaced.exponent_le hlt)
  have hn : (n : ℚ) * 2 ^ e ≤ (q + 1 / 2) * 2 ^ e :=
    mul_le_mul_of_nonneg_right (by linarith [hnear.low]) (two_zpow_pos e).le
  norm_num at he ⊢
  linarith

/-- A single-precision result is off by at most a small part of it and half the least unit. -/
theorem error_le_binary32 (h : Rounds .binary32 v w) : |w - v| ≤ v / 2 ^ 24 + 2 ^ (-150 : ℤ) := by
  have herror := h.error_le
  rw [lead_binary32, minExponent_binary32] at herror
  norm_num at herror ⊢
  exact herror

/-- A single-precision sum is off by at most a small part of it: small sums are exact. -/
theorem error_of_sum_binary32 {x y : ℚ} (hx : Representable .binary32 x) (hy : Representable .binary32 y)
    (h : Rounds .binary32 (x + y) w) : |w - (x + y)| ≤ (x + y) / 2 ^ 24 := by
  have herror := h.error_of_sum hx hy
  rw [lead_binary32] at herror
  norm_num at herror ⊢
  exact herror

/-- The rounding error up to one. -/
theorem error_of_le_one (h : Rounds .binary32 v w) (hle : v ≤ 1) : |w - v| ≤ 2 ^ (-24 : ℤ) := by
  obtain ⟨e, herror, rfl | hunit⟩ := h.exists_unit
  · rw [minExponent_binary32] at herror
    exact herror.trans (by norm_num)
  · have hpart := half_unit_le hunit
    rw [lead_binary32] at hpart
    norm_num at hpart ⊢
    linarith

end Rounds

end Floating

namespace Single

open Floating

/-! ## Single-precision numbers -/

/-- The value of a single-precision number that has one and is not below zero. -/
def HasValue (x : Float32) (v : ℚ) : Prop :=
  Shows .binary32 x.toModel.unpack v

/-- The largest power of two. -/
theorem top_binary32 : ((lead .binary32 : ℕ) : ℚ) * 2 ^ topExponent .binary32 = 2 ^ 127 := by
  have htop : topExponent .binary32 = 104 := rfl
  rw [lead_binary32, htop]
  norm_num

/-- Packing a number that is not too large keeps its value. -/
theorem hasValue_pack {x : UnpackedFloat} {v : ℚ} (h : Shows .binary32 x v) (hv : v ≤ 2 ^ 127) :
    HasValue (.ofModel (.pack x)) v := by
  show Shows .binary32 (UnpackedFloat.unpack .binary32 (UnpackedFloat.pack .binary32 x)) v
  rw [unpack_pack (by decide) h (by rwa [top_binary32])]
  exact h

/-- Packing a rounded result that is not too large keeps its value. -/
theorem exists_hasValue_pack {x : UnpackedFloat} {v : ℚ}
    (h : ∃ w, Shows .binary32 x w ∧ Rounds .binary32 v w) (hv : v ≤ 2 ^ 127) :
    ∃ w, HasValue (.ofModel (.pack x)) w ∧ Rounds .binary32 v w :=
  exists_shows_pack (by decide) h (by rwa [top_binary32])

variable {x y : Float32} {v w : ℚ}

/-- Single-precision numbers are ordered as their unpacked forms compare. -/
theorem le_iff_compare : x ≤ y ↔ (x.toModel.unpack.compare y.toModel.unpack).any (·.isLE) = true := by
  show decide (x.toModel ≤ y.toModel) = true ↔ _
  rw [decide_eq_true_iff]
  rfl

/-- The strict order of single-precision numbers is that of their unpacked forms. -/
theorem lt_iff_compare : x < y ↔ (x.toModel.unpack.compare y.toModel.unpack == some .lt) = true := by
  show decide (x.toModel < y.toModel) = true ↔ _
  rw [decide_eq_true_iff]
  rfl

/-- A single-precision number is no number, has a value, or lies to one side of all values. -/
theorem value_cases (x : Float32) :
    x.toModel.unpack.isNaN = true ∨ (∃ v, HasValue x v) ∨ IsBelow .binary32 x.toModel.unpack ∨
      IsAbove .binary32 x.toModel.unpack :=
  unpack_cases _

namespace HasValue

/-- A value of a single-precision number is a number of the format. -/
theorem representable (h : HasValue x v) : Representable .binary32 v := Shows.representable h

/-- Values are not below zero. -/
theorem nonneg (h : HasValue x v) : 0 ≤ v := Shows.nonneg h

/-- A product that is not too large is the rounded product of the values. -/
theorem mul (hx : HasValue x v) (hy : HasValue y w) (hle : v * w ≤ 2 ^ 127) :
    ∃ r, HasValue (x * y) r ∧ Rounds .binary32 (v * w) r :=
  exists_hasValue_pack (Shows.mul hx hy) hle

/-- A sum that is not too large is the rounded sum of the values. -/
theorem add (hx : HasValue x v) (hy : HasValue y w) (hle : v + w ≤ 2 ^ 127) :
    ∃ r, HasValue (x + y) r ∧ Rounds .binary32 (v + w) r :=
  exists_hasValue_pack (Shows.add hx hy) hle

/-- A difference that is not below zero is the rounded difference of the values. -/
theorem sub (hx : HasValue x v) (hy : HasValue y w) (hwv : w ≤ v) (hle : v - w ≤ 2 ^ 127) :
    ∃ r, HasValue (x - y) r ∧ Rounds .binary32 (v - w) r :=
  exists_hasValue_pack (Shows.sub hx hy hwv) hle

/-- A quotient that is not too large is the rounded quotient of the values. -/
theorem div (hx : HasValue x v) (hy : HasValue y w) (hpos : 0 < w) (hle : v / w ≤ 2 ^ 127) :
    ∃ r, HasValue (x / y) r ∧ Rounds .binary32 (v / w) r :=
  exists_hasValue_pack (Shows.div hx hy hpos) hle

/-- Numbers that have values are ordered as these are. -/
theorem le_iff (hx : HasValue x v) (hy : HasValue y w) : x ≤ y ↔ v ≤ w :=
  le_iff_compare.trans (isLE_compare_iff hx hy)

/-- The strict order of numbers that have values is that of the values. -/
theorem lt_iff (hx : HasValue x v) (hy : HasValue y w) : x < y ↔ v < w :=
  lt_iff_compare.trans (isLT_compare_iff hx hy)

/-- What has a value is its own absolute value. -/
theorem abs (h : HasValue x v) (hle : v ≤ 2 ^ 127) : HasValue x.abs v := by
  refine hasValue_pack ?_ hle
  unfold HasValue at h
  generalize x.toModel.unpack = u at h
  cases h with
  | zero => exact .zero _
  | finite hm h => exact .finite hm h

end HasValue

/-! ## The unit interval -/

/-- The literal zero has the value zero. -/
theorem hasValue_zero : HasValue 0 0 := Shows.zero .positive

/-- A positive number has the value of its significand and exponent. -/
theorem hasValue_of_unpack {x : Float32} {m : ℕ} {e : ℤ} (hm : 0 < m)
    (h : x.toModel.unpack = .finite .positive m e hm) : HasValue x (m * 2 ^ e) := by
  unfold HasValue
  rw [h]
  exact .finite hm (placed_unpack h)

/-- The literal one has the value one. -/
theorem hasValue_one : HasValue 1 1 := by
  have h := hasValue_of_unpack (x := 1) (m := 2 ^ 23) (e := -23) (by decide) rfl
  norm_num at h
  exact h

/-- The literal two has the value two. -/
theorem hasValue_two : HasValue 2 2 := by
  have h := hasValue_of_unpack (x := 2) (m := 2 ^ 23) (e := -22) (by decide) rfl
  norm_num at h
  exact h

/-- The numbers of the unit interval are those with a value of at most one. Minus zero is one of them,
since it is not below zero. -/
theorem inUnitInterval_iff {x : Float32} :
    Truth.inUnitInterval x = true ↔ ∃ v, HasValue x v ∧ v ≤ 1 := by
  rw [Truth.inUnitInterval, Bool.and_eq_true, decide_eq_true_iff, decide_eq_true_iff]
  constructor
  · rintro ⟨hlow, hhigh⟩
    suffices hvalue : ∃ v, HasValue x v by
      obtain ⟨v, hv⟩ := hvalue
      exact ⟨v, hv, (hv.le_iff hasValue_one).mp hhigh⟩
    rw [le_iff_compare] at hlow hhigh
    -- What has no value fails one of the two comparisons.
    rcases value_cases x with hnan | hvalue | hbelow | habove
    · rw [(compare_of_isNaN hnan _).2] at hlow
      exact nomatch hlow
    · exact hvalue
    · rw [(hbelow hasValue_zero).2] at hlow
      exact nomatch hlow
    · rw [(habove hasValue_one).1] at hhigh
      exact nomatch hhigh
  · rintro ⟨v, hv, hle⟩
    exact ⟨(hasValue_zero.le_iff hv).mpr hv.nonneg, (hv.le_iff hasValue_one).mpr hle⟩

end Single

end BeliefGraph
