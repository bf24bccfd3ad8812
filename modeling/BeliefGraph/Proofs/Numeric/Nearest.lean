import Mathlib.Algebra.Order.Ring.Nat
import Mathlib.Tactic.Linarith
import Mathlib.Tactic.Ring
import BeliefGraph.Numeric.Single

/-!
# Which quotients round to a pattern

The quotients that round to a pattern are those between the midpoints to its neighbours, and the
midpoints themselves if the pattern is even. `Format.nearest_eq` says so for every binary format. A
pattern is cut into a binade and a significand (`Format.units_add`); the one place where the spacing
below differs from the spacing above is the first pattern of a binade.
-/

namespace BeliefGraph

/-! ## Ends of an interval -/

namespace Single

/-- What lies strictly in front lies in front, whether or not the end belongs to it. -/
theorem within_of_lt {a b : Nat} (even : Bool) (h : a < b) : within even a b = true := by
  cases even
  · exact decide_eq_true h
  · exact decide_eq_true (Nat.le_of_lt h)

/-- What lies in front of an end is at most the end. -/
theorem le_of_within {a b : Nat} {even : Bool} (h : within even a b = true) : a ≤ b := by
  cases even
  · exact Nat.le_of_lt (of_decide_eq_true h)
  · exact of_decide_eq_true h

/-- Where the end does not belong to the interval, what lies in front of it is less. -/
theorem lt_of_within {a b : Nat} {even : Bool} (h : within even a b = true) (hodd : even = false) :
    a < b := by
  subst hodd
  exact of_decide_eq_true h

/-- A scale does not matter. -/
theorem within_mul_right {a b c : Nat} {even : Bool} (hc : 0 < c) :
    within even (a * c) (b * c) = within even a b := by
  cases even
  · exact decide_eq_decide.mpr (Nat.mul_lt_mul_right hc)
  · exact decide_eq_decide.mpr (Nat.mul_le_mul_right_iff hc)

/-- Both sides of a comparison may be shifted by the same number. -/
theorem within_add_right {a b c : Nat} {even : Bool} :
    within even (a + c) (b + c) = within even a b := by
  cases even
  · exact decide_eq_decide.mpr Nat.add_lt_add_iff_right
  · exact decide_eq_decide.mpr Nat.add_le_add_iff_right

end Single

open Single

/-! ## Rounding a quotient -/

/-- A quotient at most half away from a number rounds to it; half away only if the number is even. -/
theorem roundHalfEven_eq {num den m : Nat} (hden : 0 < den)
    (hlow : within (m % 2 == 0) (2 * m * den) (2 * num + den) = true)
    (hhigh : within (m % 2 == 0) (2 * num) ((2 * m + 1) * den) = true) :
    roundHalfEven num den = m := by
  have hle := le_of_within hlow
  have hge := le_of_within hhigh
  have hsplit : num = num / den * den + num % den := (Nat.div_add_mod' num den).symm
  have hrest : num % den < den := Nat.mod_lt num hden
  unfold roundHalfEven
  generalize num / den = q at *
  generalize num % den = r at *
  simp only
  split
  · next hless =>
    have hm : m < q + 1 := Nat.lt_of_mul_lt_mul_right (a := den) (by linarith)
    have hq : 2 * q < 2 * m + 2 := Nat.lt_of_mul_lt_mul_right (a := den) (by linarith)
    omega
  · split
    · next hmore =>
      have hm : 2 * m < 2 * q + 3 := Nat.lt_of_mul_lt_mul_right (a := den) (by linarith)
      have hq : q < m := Nat.lt_of_mul_lt_mul_right (a := den) (by linarith)
      omega
    · -- Half way between two numbers.
      have hhalf : 2 * r = den := by omega
      have hm : m ≤ q + 1 := Nat.le_of_mul_le_mul_right (c := den) (by linarith) hden
      have hq : q ≤ m := Nat.le_of_mul_le_mul_right (c := den) (by linarith) hden
      rcases Nat.mod_two_eq_zero_or_one m with heven | hodd
      · omega
      · have hlt := lt_of_within hlow (by simp [hodd])
        have hgt := lt_of_within hhigh (by simp [hodd])
        have hm : m < q + 1 := Nat.lt_of_mul_lt_mul_right (a := den) (by linarith)
        have hq : q < m := Nat.lt_of_mul_lt_mul_right (a := den) (by linarith)
        omega

/-! ## Patterns by binade and significand -/

namespace Format

variable (f : Format)

/-- A binade has at least one pattern. -/
theorem binade_pos : 0 < f.binade := Nat.pow_pos (by omega)

/-- The value of a pattern by its binade and significand. Only the first binade holds significands
below the least normal one. -/
theorem units_add {k m : Nat} (hm : m < 2 * f.binade) (hk : k = 0 ∨ f.binade ≤ m) :
    f.units (k * f.binade + m) = m * 2 ^ k := by
  have hpos := f.binade_pos
  unfold units
  by_cases hsmall : m < f.binade
  · obtain rfl : k = 0 := by omega
    simp [hsmall]
  · obtain ⟨r, rfl⟩ := Nat.exists_eq_add_of_le (Nat.not_lt.mp hsmall)
    have hr : r < f.binade := by omega
    have hpattern : k * f.binade + (f.binade + r) = r + f.binade * (k + 1) := by ring
    have hnot : ¬ r + f.binade * (k + 1) < f.binade := by
      rw [Nat.mul_succ]
      omega
    rw [hpattern, if_neg hnot, Nat.add_mul_mod_self_left, Nat.mod_eq_of_lt hr,
      Nat.add_mul_div_left _ _ hpos, Nat.div_eq_of_lt hr, Nat.zero_add, Nat.add_sub_cancel]
    rfl

/-- Every pattern has a binade and a significand. -/
theorem exists_binade (pattern : Nat) :
    ∃ k m, pattern = k * f.binade + m ∧ m < 2 * f.binade ∧ (k = 0 ∨ f.binade ≤ m) := by
  have hpos := f.binade_pos
  have hsplit : pattern = pattern / f.binade * f.binade + pattern % f.binade :=
    (Nat.div_add_mod' pattern f.binade).symm
  have hrest := Nat.mod_lt pattern hpos
  cases hq : pattern / f.binade with
  | zero => exact ⟨0, pattern, by simp, by rw [hq] at hsplit; omega, .inl rfl⟩
  | succ k =>
    refine ⟨k, f.binade + pattern % f.binade, ?_, by omega, .inr (Nat.le_add_right _ _)⟩
    rw [hq, Nat.succ_mul] at hsplit
    omega

/-- Twice a binade is the least significand that is too long. -/
theorem pow_precision (hf : 1 < f.precision) : 2 * f.binade = 2 ^ f.precision := by
  obtain ⟨n, hn⟩ := Nat.exists_eq_add_of_lt hf
  rw [binade, hn]
  show 2 * 2 ^ (1 + n) = 2 ^ (1 + n + 1)
  ring

/-- Within a binade the spacing is known, and only the significand is rounded. -/
theorem nearest_of_binade (hf : 1 < f.precision) {num den k : Nat} (hden : 0 < den)
    (hhigh : num * 2 ^ f.scale < 2 * f.binade * 2 ^ k * den)
    (hlow : k = 0 ∨ f.binade * 2 ^ k * den ≤ num * 2 ^ f.scale) :
    f.nearest num den
      = min f.infinite (roundHalfEven (num * 2 ^ f.scale) (den * 2 ^ k) + k * f.binade) := by
  have hprecision := f.pow_precision hf
  have hshift : (num * 2 ^ f.scale / den).log2 + 1 - f.precision = k := by
    have hbelow : num * 2 ^ f.scale / den < 2 ^ (f.precision + k) := by
      rw [Nat.div_lt_iff_lt_mul hden, pow_add, ← hprecision]
      exact hhigh
    generalize hwhole : num * 2 ^ f.scale / den = whole at *
    by_cases hzero : whole = 0
    · -- Then the quotient lies in the first binade.
      have hk : k = 0 := by
        rcases hlow with hk | hlow
        · exact hk
        · have hle := (Nat.le_div_iff_mul_le hden).mpr hlow
          rw [hwhole, hzero] at hle
          have hpos : 0 < f.binade * 2 ^ k := Nat.mul_pos f.binade_pos (Nat.two_pow_pos k)
          omega
      rw [hzero, hk]
      have : (0 : Nat).log2 = 0 := by decide
      omega
    · have hlog := (Nat.log2_lt hzero).mpr hbelow
      rcases hlow with rfl | hlow
      · omega
      · have hle : 2 ^ (f.precision - 1 + k) ≤ whole := by
          rw [← hwhole, Nat.le_div_iff_mul_le hden, pow_add]
          exact hlow
        have := (Nat.le_log2 hzero).mpr hle
        omega
  unfold nearest
  simp only [Nat.pow_eq]
  rw [hshift]

/-- The next pattern has the next significand, also when a binade ends between them. -/
theorem units_add_succ {k m : Nat} (hm : m < 2 * f.binade) (hk : k = 0 ∨ f.binade ≤ m) :
    f.units (k * f.binade + m + 1) = (m + 1) * 2 ^ k := by
  by_cases hlast : m + 1 < 2 * f.binade
  · exact f.units_add hlast (hk.imp_right Nat.le_succ_of_le)
  · have hpos := f.binade_pos
    have hm : m + 1 = 2 * f.binade := by omega
    have hpattern : k * f.binade + m + 1 = (k + 1) * f.binade + f.binade := by
      rw [Nat.add_assoc, hm]
      ring
    rw [hpattern, f.units_add (by omega) (.inr (Nat.le_refl _)), hm]
    ring

/-- A pattern is even when its significand is: binades have an even number of patterns. -/
theorem parity_add (hf : 1 < f.precision) (k m : Nat) : (k * f.binade + m) % 2 = m % 2 := by
  have heven : f.binade % 2 = 0 := by
    obtain ⟨n, hn⟩ := Nat.exists_eq_add_of_lt hf
    rw [binade, hn]
    show 2 ^ (1 + n) % 2 = 0
    rw [pow_add, pow_one, Nat.mul_mod_right]
  rw [Nat.add_mod, Nat.mul_mod, heven, Nat.mul_zero]
  simp

/-- The pattern before one that is not the first of its binade. -/
theorem units_add_pred {k m : Nat} (hm : m + 1 < 2 * f.binade) (hk : k = 0 ∨ f.binade < m + 1) :
    f.units (k * f.binade + (m + 1) - 1) = m * 2 ^ k := by
  rw [← Nat.add_assoc, Nat.add_sub_cancel]
  exact f.units_add (by omega) (by omega)

/-- The pattern before the first one of a binade. -/
theorem units_first_pred (j : Nat) :
    f.units ((j + 1) * f.binade + f.binade - 1) + 2 ^ j = 2 * f.binade * 2 ^ j := by
  have hpos := f.binade_pos
  have hpattern : (j + 1) * f.binade + f.binade - 1 = j * f.binade + (2 * f.binade - 1) := by
    rw [Nat.succ_mul]
    omega
  rw [hpattern, f.units_add (by omega) (by omega), ← Nat.succ_mul]
  congr 1
  omega

/-- A quotient rounds to a pattern if it lies in its binade and at most half a step away. -/
theorem nearest_in_binade (hf : 1 < f.precision) {num den k m : Nat} (hden : 0 < den)
    (hm : m < 2 * f.binade) (hsame : k = 0 ∨ f.binade * 2 ^ k * den ≤ num * 2 ^ f.scale)
    (hlow : within (m % 2 == 0) (2 * m * (den * 2 ^ k)) (2 * (num * 2 ^ f.scale) + den * 2 ^ k)
      = true)
    (hhigh : within (m % 2 == 0) (2 * (num * 2 ^ f.scale)) ((2 * m + 1) * (den * 2 ^ k)) = true) :
    f.nearest num den = min f.infinite (k * f.binade + m) := by
  have hstep : 0 < den * 2 ^ k := Nat.mul_pos hden (Nat.two_pow_pos k)
  have hbelow : num * 2 ^ f.scale < 2 * f.binade * 2 ^ k * den := by
    have h₁ := le_of_within hhigh
    have h₂ : (2 * m + 1) * (den * 2 ^ k) < 4 * f.binade * (den * 2 ^ k) :=
      Nat.mul_lt_mul_of_pos_right (by omega) hstep
    linarith
  rw [f.nearest_of_binade hf hden hbelow hsame, roundHalfEven_eq hstep hlow hhigh, Nat.add_comm]

/-- Below the first pattern of a binade the steps are half as wide as above it. -/
theorem nearest_below_first (hf : 1 < f.precision) {num den j : Nat} (hden : 0 < den)
    (hlow : (4 * f.binade * 2 ^ j) * den ≤ 2 * (num * 2 ^ f.scale) + 2 ^ j * den)
    (hhigh : num * 2 ^ f.scale < 2 * f.binade * 2 ^ j * den) :
    f.nearest num den = min f.infinite ((j + 1) * f.binade + f.binade) := by
  have hbinade := f.binade_pos
  have hstep : 0 < den * 2 ^ j := Nat.mul_pos hden (Nat.two_pow_pos j)
  have hsame : f.binade * 2 ^ j * den ≤ num * 2 ^ f.scale := by
    have : den * 2 ^ j ≤ f.binade * (den * 2 ^ j) := Nat.le_mul_of_pos_left _ hbinade
    linarith
  have hround : roundHalfEven (num * 2 ^ f.scale) (den * 2 ^ j) = 2 * f.binade := by
    refine roundHalfEven_eq hstep ?_ (within_of_lt _ (by linarith))
    rw [Nat.mul_mod_right]
    exact decide_eq_true (by linarith)
  rw [f.nearest_of_binade hf hden hhigh (.inr hsame), hround]
  congr 1
  ring

/-- What lies between the midpoints to the neighbours of a pattern rounds to it, and so do the
midpoints themselves if the pattern is even. -/
theorem nearest_eq (hf : 1 < f.precision) {pattern num den : Nat} (hden : 0 < den)
    (hpos : 0 < pattern) (hfinite : pattern ≤ f.infinite)
    (hlow : within (pattern % 2 == 0) ((f.units (pattern - 1) + f.units pattern) * den)
      (2 * (num * 2 ^ f.scale)) = true)
    (hhigh : within (pattern % 2 == 0) (2 * (num * 2 ^ f.scale))
      ((f.units pattern + f.units (pattern + 1)) * den) = true) :
    f.nearest num den = pattern := by
  obtain ⟨k, m, rfl, hm, hk⟩ := f.exists_binade pattern
  have hbinade := f.binade_pos
  rw [f.parity_add hf] at hlow hhigh
  rw [f.units_add_succ hm hk, f.units_add hm hk] at hhigh
  rw [f.units_add hm hk] at hlow
  rw [← Nat.min_eq_right hfinite]
  have hhigh' : within (m % 2 == 0) (2 * (num * 2 ^ f.scale)) ((2 * m + 1) * (den * 2 ^ k))
      = true := by
    rw [← hhigh]
    congr 1
    ring
  by_cases hfirst : k = 0 ∨ f.binade < m
  · -- The spacing is the same on both sides.
    obtain ⟨n, rfl⟩ : ∃ n, m = n + 1 := ⟨m - 1, by rcases hfirst with rfl | hfirst <;> omega⟩
    rw [f.units_add_pred hm hfirst] at hlow
    have hle := le_of_within hlow
    refine f.nearest_in_binade hf hden hm (hfirst.imp_right fun hlt => ?_) ?_ hhigh'
    · have : f.binade * (2 ^ k * den) ≤ n * (2 ^ k * den) := Nat.mul_le_mul_right _ (by omega)
      have : 0 < 2 ^ k * den := Nat.mul_pos (Nat.two_pow_pos k) hden
      linarith
    · rw [← within_add_right (c := den * 2 ^ k)] at hlow
      rw [← hlow]
      congr 1
      ring
  · obtain ⟨j, rfl⟩ : ∃ j, k = j + 1 := ⟨k - 1, by omega⟩
    obtain rfl : f.binade = m := by omega
    have hle := le_of_within hlow
    have hprevious := congrArg (· * den) (f.units_first_pred j)
    have hpow : (2 : Nat) ^ (j + 1) = 2 * 2 ^ j := by ring
    simp only [hpow] at hle hprevious
    by_cases hsame : f.binade * 2 ^ (j + 1) * den ≤ num * 2 ^ f.scale
    · have hstep : 0 < den * 2 ^ (j + 1) := Nat.mul_pos hden (Nat.two_pow_pos _)
      refine f.nearest_in_binade hf hden hm (.inr hsame) (within_of_lt _ ?_) hhigh'
      linarith
    · rw [hpow] at hsame
      exact f.nearest_below_first hf hden (by linarith) (by linarith)

end Format

end BeliefGraph
