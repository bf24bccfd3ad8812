import Mathlib.Algebra.Order.Field.Power
import Mathlib.Algebra.Order.Field.Rat
import Mathlib.Tactic.Linarith
import Mathlib.Tactic.NormNum
import Mathlib.Tactic.Positivity
import Mathlib.Tactic.Ring

/-!
# Rounding to a binary format

A number that is not negative is a significand times a power of two, with a significand that is as long
as the format has room for unless the exponent is the least one (`Placed`). It is rounded by rounding the
significand to the nearest whole number, ties to even (`Rounds`). Exponents have no upper bound here:
overflow is a matter of packing.

All later bounds on rounded results come from the fact that rounding is monotone (`Rounds.mono`), so a
bound that is itself a number of the format (`Representable`) survives it. How far off a rounded result
is depends on its size: by a small part of it (`Rounds.error_of_normal`), or by half the least unit if it
is that small (`Rounds.error_le`).
-/

namespace BeliefGraph.Floating

/-! ## Nearest whole numbers -/

/-- `n` is the whole number nearest to `q`; half way between two it is the even one. -/
structure Nearest (q : ℚ) (n : ℕ) : Prop where
  low : (n : ℚ) - 1 / 2 ≤ q
  high : q ≤ n + 1 / 2
  even : q = n - 1 / 2 ∨ q = n + 1 / 2 → Even n

/-- A whole number is nearest to itself. -/
theorem nearest_natCast (n : ℕ) : Nearest n n where
  low := by linarith
  high := by linarith
  even h := by rcases h with h | h <;> linarith

/-- The nearest whole number is at most half a unit off. -/
theorem Nearest.error {q : ℚ} {n : ℕ} (h : Nearest q n) : |(n : ℚ) - q| ≤ 1 / 2 := by
  rw [abs_le]
  constructor <;> linarith [h.low, h.high]

/-- Of greater numbers the nearest whole numbers are no smaller. -/
theorem Nearest.mono {q q' : ℚ} {n n' : ℕ} (h : Nearest q n) (h' : Nearest q' n') (hle : q ≤ q') :
    n ≤ n' := by
  by_contra hlt
  have hsucc : (n' : ℚ) + 1 ≤ n := by exact_mod_cast Nat.not_le.mp hlt
  have hlow := h.low
  have hhigh := h'.high
  -- Only a common half way point is left, and its two neighbours are not both even.
  have hn : (n : ℚ) = n' + 1 := by linarith
  have heven : Even n := h.even (.inl (by linarith))
  have heven' : Even n' := h'.even (.inr (by linarith))
  have hcast : n = n' + 1 := by exact_mod_cast hn
  rw [hcast, Nat.even_add_one] at heven
  exact heven heven'

/-! ## Significand and exponent -/

variable {F : Float.Model.Format}

/-- The least significand of full length: its leading bit and no other one. -/
def lead (F : Float.Model.Format) : ℕ := 2 ^ F.mantissaBitsWithoutImplicit

/-- The least significand of full length is not zero. -/
theorem lead_pos (F : Float.Model.Format) : 0 < lead F := Nat.two_pow_pos _

/-- The least exponent is that of the smallest normal numbers. -/
theorem minExponent_eq (F : Float.Model.Format) :
    F.minExponent = 1 - F.exponentBias - F.mantissaBitsWithoutImplicit := by
  have hpos : 1 ≤ 2 ^ (F.exponentBits - 1) := Nat.one_le_two_pow
  unfold Float.Model.Format.minExponent Float.Model.Format.exponentBias Float.Model.Format.mantissaBits
  push_cast [hpos]
  ring

/-- The least exponent is not positive: the least unit of a format is one or a part of it. -/
theorem minExponent_nonpos (F : Float.Model.Format) : F.minExponent ≤ 0 := by
  have hpos := F.hm
  rw [minExponent_eq]
  omega

/-- The significand `q` belongs to the exponent `e`. -/
structure Placed (F : Float.Model.Format) (q : ℚ) (e : ℤ) : Prop where
  nonneg : 0 ≤ q
  lt : q < 2 * lead F
  least : F.minExponent ≤ e
  normal : e = F.minExponent ∨ lead F ≤ q

/-- A power of two is positive. -/
theorem two_zpow_pos (e : ℤ) : (0 : ℚ) < 2 ^ e := zpow_pos (by norm_num) e

/-- A binade ends where the next one starts. -/
theorem binade_le {e e' : ℤ} (h : e < e') {c : ℚ} (hc : 0 ≤ c) : 2 * c * 2 ^ e ≤ c * 2 ^ e' := by
  have hle : (2 : ℚ) ^ (e + 1) ≤ 2 ^ e' := zpow_le_zpow_right₀ (by norm_num) h
  rw [zpow_add_one₀ (by norm_num)] at hle
  calc 2 * c * 2 ^ e = c * (2 ^ e * 2) := by ring
    _ ≤ c * 2 ^ e' := mul_le_mul_of_nonneg_left hle hc

namespace Placed

variable {q q' : ℚ} {e e' : ℤ}

/-- A significand has full length when its exponent is above one that the format has. -/
theorem normal_of_lt (h : Placed F q' e') (hleast : F.minExponent ≤ e) (hlt : e < e') : lead F ≤ q' :=
  h.normal.resolve_left (by omega)

/-- The order of exponents is the order of numbers. -/
theorem lt_of_exponent_lt (h : Placed F q e) (h' : Placed F q' e') (hlt : e < e') :
    q * 2 ^ e < q' * 2 ^ e' :=
  calc q * 2 ^ e < 2 * lead F * 2 ^ e := mul_lt_mul_of_pos_right h.lt (two_zpow_pos e)
    _ ≤ lead F * 2 ^ e' := binade_le hlt (Nat.cast_nonneg _)
    _ ≤ q' * 2 ^ e' := mul_le_mul_of_nonneg_right (h'.normal_of_lt h.least hlt) (two_zpow_pos e').le

end Placed

/-! ## Rounding -/

/-- `w` is the number of the format that is nearest to `v`. -/
def Rounds (F : Float.Model.Format) (v w : ℚ) : Prop :=
  ∃ (q : ℚ) (n : ℕ) (e : ℤ), Placed F q e ∧ Nearest q n ∧ v = q * 2 ^ e ∧ w = n * 2 ^ e

/-- A number whose significand is not too long is a number of the format, whether or not the significand is
as long as it can be. -/
def Representable (F : Float.Model.Format) (v : ℚ) : Prop :=
  ∃ (m : ℕ) (e : ℤ), m < 2 * lead F ∧ F.minExponent ≤ e ∧ v = m * 2 ^ e

/-- A significand that belongs to its exponent makes a number of the format. -/
theorem Placed.representable {m : ℕ} {e : ℤ} (h : Placed F m e) : Representable F (m * 2 ^ e) :=
  ⟨m, e, by exact_mod_cast h.lt, h.least, rfl⟩

/-- A short significand is doubled until it is long enough or the exponent is the least one. -/
theorem Representable.exists_placed {v : ℚ} (h : Representable F v) :
    ∃ (m : ℕ) (e : ℤ), Placed F m e ∧ v = m * 2 ^ e := by
  obtain ⟨m, e, hm, he, rfl⟩ := h
  obtain ⟨steps, rfl⟩ := Int.le.dest he
  induction steps generalizing m with
  | zero =>
    refine ⟨m, F.minExponent, ⟨by positivity, by exact_mod_cast hm, le_refl _, .inl rfl⟩, ?_⟩
    rw [Nat.cast_zero, add_zero]
  | succ steps ih =>
    by_cases hlong : lead F ≤ m
    · exact ⟨m, _, ⟨by positivity, by exact_mod_cast hm, he, .inr (by exact_mod_cast hlong)⟩, rfl⟩
    · obtain ⟨m', e', hplaced, hv⟩ := ih (2 * m) (by omega) (by omega)
      refine ⟨m', e', hplaced, ?_⟩
      rw [← hv, Nat.cast_mul, Nat.cast_add, Nat.cast_one, ← add_assoc, zpow_add_one₀ (by norm_num)]
      push_cast
      ring

/-- A number of the format is a whole number of its least units. -/
theorem Representable.exists_units {v : ℚ} (h : Representable F v) :
    ∃ k : ℕ, v = k * 2 ^ F.minExponent := by
  obtain ⟨m, e, -, he, rfl⟩ := h
  obtain ⟨steps, rfl⟩ := Int.le.dest he
  refine ⟨m * 2 ^ steps, ?_⟩
  rw [zpow_add₀ (by norm_num), zpow_natCast]
  push_cast
  ring

/-- A number of the format rounds to itself. -/
theorem Representable.rounds {v : ℚ} (h : Representable F v) : Rounds F v v := by
  obtain ⟨m, e, hplaced, rfl⟩ := h.exists_placed
  exact ⟨m, m, e, hplaced, nearest_natCast m, rfl, rfl⟩

/-- A whole number that is not too long is a number of the format. -/
theorem representable_natCast {n : ℕ} (hn : n < 2 * lead F) : Representable F n :=
  ⟨n, 0, hn, minExponent_nonpos F, by rw [zpow_zero, mul_one]⟩

/-- Zero is a number of each format. -/
theorem representable_zero : Representable F 0 := by
  exact_mod_cast representable_natCast (F := F) (n := 0) (by have := lead_pos F; omega)

/-- One is a number of each format. -/
theorem representable_one : Representable F 1 := by
  exact_mod_cast representable_natCast (F := F) (n := 1) (by have := lead_pos F; omega)

namespace Rounds

variable {v v' w w' : ℚ}

/-- Of greater numbers the rounded ones are no smaller. -/
theorem mono (h : Rounds F v w) (h' : Rounds F v' w') (hle : v ≤ v') : w ≤ w' := by
  obtain ⟨q, n, e, hplaced, hnear, rfl, rfl⟩ := h
  obtain ⟨q', n', e', hplaced', hnear', rfl, rfl⟩ := h'
  -- Between different exponents a power of two stands, which both numbers round to at most and at
  -- least.
  rcases lt_trichotomy e e' with hlt | rfl | hlt
  · have hn : n ≤ 2 * lead F := hnear.mono (nearest_natCast _) (by exact_mod_cast hplaced.lt.le)
    have hn' : lead F ≤ n' :=
      (nearest_natCast _).mono hnear' (hplaced'.normal_of_lt hplaced.least hlt)
    calc (n : ℚ) * 2 ^ e ≤ 2 * lead F * 2 ^ e :=
          mul_le_mul_of_nonneg_right (by exact_mod_cast hn) (two_zpow_pos e).le
      _ ≤ lead F * 2 ^ e' := binade_le hlt (Nat.cast_nonneg _)
      _ ≤ n' * 2 ^ e' := mul_le_mul_of_nonneg_right (by exact_mod_cast hn') (two_zpow_pos e').le
  · have hn : n ≤ n' := hnear.mono hnear' (le_of_mul_le_mul_right hle (two_zpow_pos e))
    exact mul_le_mul_of_nonneg_right (by exact_mod_cast hn) (two_zpow_pos e).le
  · exact absurd (hplaced'.lt_of_exponent_lt hplaced hlt) (not_lt.mpr hle)

/-- An upper bound in the format survives rounding. -/
theorem le (h : Rounds F v w) {bound : ℚ} (hbound : Representable F bound) (hle : v ≤ bound) :
    w ≤ bound :=
  h.mono hbound.rounds hle

/-- A lower bound in the format survives rounding. -/
theorem ge (h : Rounds F v w) {bound : ℚ} (hbound : Representable F bound) (hle : bound ≤ v) :
    bound ≤ w :=
  hbound.rounds.mono h hle

/-- What is a number of the format is not changed by rounding. -/
theorem eq_of_representable (h : Rounds F v w) (hv : Representable F v) : w = v :=
  le_antisymm (h.le hv le_rfl) (h.ge hv le_rfl)

/-! ## The rounding error -/

/-- What is rounded is not below zero. -/
theorem nonneg (h : Rounds F v w) : 0 ≤ v := by
  obtain ⟨q, n, e, hplaced, -, rfl, -⟩ := h
  exact mul_nonneg hplaced.nonneg (two_zpow_pos e).le

/-- The rounding error is at most half a unit, which is the least one or small against the number. -/
theorem exists_unit (h : Rounds F v w) : ∃ e : ℤ, |w - v| ≤ 2 ^ e / 2 ∧
    (e = F.minExponent ∨ lead F * (2 : ℚ) ^ e ≤ v) := by
  obtain ⟨q, n, e, hplaced, hnear, rfl, rfl⟩ := h
  refine ⟨e, ?_, hplaced.normal.imp_right fun hle => ?_⟩
  · rw [← sub_mul, abs_mul, abs_of_pos (two_zpow_pos e)]
    linarith [mul_le_mul_of_nonneg_right hnear.error (two_zpow_pos e).le]
  · exact mul_le_mul_of_nonneg_right hle (two_zpow_pos e).le

/-- Half a unit is a small part of a number whose significand has full length. -/
theorem half_unit_le {e : ℤ} (h : lead F * (2 : ℚ) ^ e ≤ v) : 2 ^ e / 2 ≤ v / (2 * lead F) := by
  have hlead : (0 : ℚ) < lead F := Nat.cast_pos.mpr (lead_pos F)
  rw [div_le_div_iff₀ two_pos (by positivity)]
  linarith

/-- A number that is not below the normal ones is off by a small part of it. -/
theorem error_of_normal (h : Rounds F v w) (hv : lead F * (2 : ℚ) ^ F.minExponent ≤ v) :
    |w - v| ≤ v / (2 * lead F) := by
  obtain ⟨e, herror, rfl | hle⟩ := h.exists_unit
  · exact herror.trans (half_unit_le hv)
  · exact herror.trans (half_unit_le hle)

/-- Any number is off by a small part of it or by half the least unit. -/
theorem error_le (h : Rounds F v w) : |w - v| ≤ v / (2 * lead F) + 2 ^ F.minExponent / 2 := by
  have hleast := two_zpow_pos F.minExponent
  have hpart : 0 ≤ v / (2 * lead F) := div_nonneg h.nonneg (by positivity)
  obtain ⟨e, herror, rfl | hle⟩ := h.exists_unit
  · linarith
  · linarith [half_unit_le hle]

/-- A sum of two numbers of the format is exact below the normal ones. -/
theorem error_of_sum {x y : ℚ} (hx : Representable F x) (hy : Representable F y)
    (h : Rounds F (x + y) w) : |w - (x + y)| ≤ (x + y) / (2 * lead F) := by
  rcases le_or_gt (lead F * (2 : ℚ) ^ F.minExponent) (x + y) with hnormal | hsmall
  · exact h.error_of_normal hnormal
  · obtain ⟨k, rfl⟩ := hx.exists_units
    obtain ⟨l, rfl⟩ := hy.exists_units
    have hsum : (k + l : ℕ) * (2 : ℚ) ^ F.minExponent
        = k * 2 ^ F.minExponent + l * 2 ^ F.minExponent := by
      push_cast
      ring
    rw [← hsum] at h hsmall ⊢
    -- The sum is a whole number of least units, and few enough of them to be a number of the format.
    have hlt : k + l < lead F := by
      exact_mod_cast lt_of_mul_lt_mul_right hsmall (two_zpow_pos _).le
    rw [h.eq_of_representable ⟨k + l, F.minExponent, by omega, le_rfl, rfl⟩, sub_self, abs_zero]
    exact div_nonneg (by positivity) (by positivity)

end Rounds

end BeliefGraph.Floating
