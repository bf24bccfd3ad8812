import Mathlib.Order.Interval.Set.UnorderedInterval
import BeliefGraph.Proofs.Numeric.Double
import BeliefGraph.Proofs.Space.Focus

/-!
# Decay

Decay leaves every atom a part of its short-term importance. The part is one minus the rate, the product
with it is rounded, and the result is cut at the point (`Store.exists_scaled`). Both roundings are monotone
and keep what is a number of the format already. So what is left lies between zero and what there was,
grows with what there was and shrinks with the rate (`Store.IsPart.mono`), and the ends of the unit interval
keep everything or nothing (`Store.fades_faded`).
-/

namespace BeliefGraph

open Floating Double

/-- A rate as it counts: the nearest number of the unit interval, or zero if it is no number. -/
def clampedRate (rate : Float) : Float :=
  if rate.isNaN then 0
  else if rate < 0 then 0
  else if 1 < rate then 1
  else rate

namespace Store

variable {rate rate' part : Float} {c p p' : ℚ} {n n' k k' : ℕ}

/-- What is left of short-term importance at a rate. -/
def faded (rate : Float) (x : Int32) : Int32 :=
  scaled x (remainder rate)

/-! ## Parts of whole numbers -/

/-- `k` is what is left of `n`: the product is rounded and then cut at the point. -/
def IsPart (p : ℚ) (n k : ℕ) : Prop :=
  ∃ w, Rounds .binary64 (n * p) w ∧ ⌊w⌋₊ = k

/-- At the factor one all of a whole number is left. -/
theorem isPart_one (hn : n < 2 * lead .binary64) : IsPart 1 n n :=
  ⟨n, by rw [mul_one]; exact (representable_natCast hn).rounds, Nat.floor_natCast n⟩

/-- At the factor zero nothing is left. -/
theorem isPart_zero (n : ℕ) : IsPart 0 n 0 :=
  ⟨0, by rw [mul_zero]; exact representable_zero.rounds, Nat.floor_zero⟩

/-- What is left grows with the exact product: neither rounding nor the cut reverses an order. -/
theorem IsPart.mono (h : IsPart p n k) (h' : IsPart p' n' k') (hle : n * p ≤ n' * p') : k ≤ k' := by
  obtain ⟨w, hw, rfl⟩ := h
  obtain ⟨w', hw', rfl⟩ := h'
  exact Nat.floor_mono (hw.mono hw' hle)

/-! ## One importance -/

/-- No importance is larger in size than two to the power 31. -/
theorem natAbs_toInt_le (x : Int32) : x.toInt.natAbs ≤ 2 ^ 31 := by
  have hlow := x.le_toInt
  have hhigh := x.toInt_lt
  omega

/-- The conversion to a whole number and the one back to importance have room for every part. -/
theorem exists_scaled (x : Int32) (hp : HasValue part p) (hle : p ≤ 1) :
    ∃ w, HasValue ((UInt32.ofNat x.toInt.natAbs).toFloat * part) w ∧
      Rounds .binary64 (x.toInt.natAbs * p) w ∧ w ≤ x.toInt.natAbs ∧
      (scaled x part).toInt = x.toInt.sign * ⌊w⌋₊ := by
  have hroom := natAbs_toInt_le x
  -- the product stays below two to the power 31, where the cut to a whole number saturates nowhere
  obtain ⟨n, hn⟩ : ∃ n, x.toInt.natAbs = n := ⟨_, rfl⟩
  rw [hn] at hroom ⊢
  have hwhole := hasValue_toFloat (UInt32.ofNat n)
  rw [UInt32.toNat_ofNat', Nat.mod_eq_of_lt (by omega)] at hwhole
  have hpart : n * p ≤ n := mul_le_of_le_one_right (Nat.cast_nonneg n) hle
  have hn31 : (n : ℚ) ≤ 2 ^ 31 := by exact_mod_cast hroom
  obtain ⟨w, hw, hrounds⟩ := hwhole.mul hp
    ((hpart.trans hn31).trans (pow_le_pow_right₀ (by norm_num) (by decide)))
  have hwn : w ≤ n := hrounds.le (representable_natCast (by rw [lead_binary64]; omega)) hpart
  have hcut := hw.toNat_toUInt32 (by linarith)
  have hfloor : ⌊w⌋₊ ≤ n := Nat.floor_le_of_le hwn
  refine ⟨w, hw, hrounds, hwn, ?_⟩
  have hrange := x.le_toInt
  have hrange' := x.toInt_lt
  unfold scaled
  dsimp only
  rw [hn, hcut, toInt_clampImportance]
  rcases lt_trichotomy x.toInt 0 with hneg | hzero | hpos
  · rw [if_pos hneg, Int.sign_eq_neg_one_of_neg hneg]
    omega
  · rw [hzero, if_neg (lt_irrefl 0), Int.sign_zero, zero_mul]
    omega
  · rw [if_neg hpos.not_gt, Int.sign_eq_one_of_pos hpos]
    omega

/-! ## The rate -/

/-- A rate that is no number or is negative counts as zero. -/
theorem clampedRate_of_small (h : rate.isNaN = true ∨ rate < 0) : clampedRate rate = 0 := by
  unfold clampedRate
  split
  · rfl
  · next hnan => rw [if_pos (h.resolve_left hnan)]

/-- Any other rate counts as itself, up to one. -/
theorem clampedRate_of_not_lt (hnan : ¬ rate.isNaN = true) (hlow : ¬ rate < 0) :
    clampedRate rate = if 1 < rate then 1 else rate := by
  rw [clampedRate, if_neg hnan, if_neg hlow]

/-- Every rate counts as one that has a value. -/
theorem exists_clampedRate (rate : Float) :
    ∃ c, HasValue (clampedRate rate) c ∧ c ≤ 1 ∧
      (rate.isNaN = true ∨ rate ≤ 0 → c = 0) ∧ (1 ≤ rate → c = 1) := by
  -- no number, a number that is not negative, one below all of these, or one above them
  rcases value_cases rate with hnan | ⟨v, hv⟩ | hbelow | habove
  · refine ⟨0, ?_, zero_le_one, fun _ => rfl, fun hone => absurd hone (not_le_of_isNaN hnan 1).2⟩
    rw [clampedRate_of_small (.inl hnan)]
    exact hasValue_zero
  · have hnan := ne_true_of_eq_false hv.isNaN
    have hclamped := clampedRate_of_not_lt hnan ((hv.lt_iff hasValue_zero).not.mpr hv.nonneg.not_gt)
    have hsmall (h : rate.isNaN = true ∨ rate ≤ 0) : v = 0 :=
      le_antisymm ((hv.le_iff hasValue_zero).mp (h.resolve_left hnan)) hv.nonneg
    by_cases hhigh : 1 < rate
    · have hone := (hasValue_one.lt_iff hv).mp hhigh
      rw [hclamped, if_pos hhigh]
      exact ⟨1, hasValue_one, le_rfl, fun h => absurd (hsmall h) (by linarith), fun _ => rfl⟩
    · have hle := not_lt.mp ((hasValue_one.lt_iff hv).not.mp hhigh)
      rw [hclamped, if_neg hhigh]
      exact ⟨v, hv, hle, hsmall, fun hone => le_antisymm hle ((hasValue_one.le_iff hv).mp hone)⟩
  · have hlow := (lt_of_isBelow hbelow hasValue_zero).1
    refine ⟨0, ?_, zero_le_one, fun _ => rfl, fun hone => ?_⟩
    · rw [clampedRate_of_small (.inr hlow)]
      exact hasValue_zero
    · exact absurd hone (lt_of_isBelow hbelow hasValue_one).2
  · obtain ⟨-, hge, hlow, hnot⟩ := lt_of_isAbove habove hasValue_zero
    have hnan : ¬ rate.isNaN = true := fun h => (not_le_of_isNaN h 0).2 hge
    refine ⟨1, ?_, le_rfl, fun h => absurd (h.resolve_left hnan) hnot, fun _ => rfl⟩
    rw [clampedRate_of_not_lt hnan hlow, if_pos (lt_of_isAbove habove hasValue_one).1]
    exact hasValue_one

/-- The two ends of the unit interval are taken from one without a rounding error. -/
theorem remainder_eq (rate : Float) : remainder rate = 1 - clampedRate rate := by
  have hkeep : (1 : Float) - 0 = 1 := rfl
  have hlose : (1 : Float) - 1 = 0 := rfl
  unfold remainder clampedRate
  split
  · exact hkeep.symm
  split
  · exact hkeep.symm
  split
  · exact hlose.symm
  · rfl

/-- The part that is left at a rate. -/
theorem exists_remainder (hc : HasValue (clampedRate rate) c) (hle : c ≤ 1) :
    ∃ p, HasValue (remainder rate) p ∧ Rounds .binary64 (1 - c) p ∧ p ≤ 1 := by
  obtain ⟨p, hp, hrounds⟩ := hasValue_one.sub hc hle
    ((sub_le_self 1 hc.nonneg).trans (one_le_pow₀ (by norm_num)))
  rw [remainder_eq]
  exact ⟨p, hp, hrounds, hrounds.le representable_one (sub_le_self 1 hc.nonneg)⟩

/-! ## All importances -/

/-- What is left of importance goes toward zero, to zero at most, and stays in order. -/
structure Fades (rate : Float) (f : Int32 → Int32) : Prop where
  /-- One minus the rate is rounded, the product with it is rounded, and then it is cut at the point. There
  is room for it. -/
  exact : ∃ c p, HasValue (clampedRate rate) c ∧ HasValue (remainder rate) p ∧
    Rounds .binary64 (1 - c) p ∧ ∀ x : Int32, ∃ w,
      HasValue ((UInt32.ofNat x.toInt.natAbs).toFloat * remainder rate) w ∧
      Rounds .binary64 (x.toInt.natAbs * p) w ∧ w ≤ x.toInt.natAbs ∧
      (f x).toInt = x.toInt.sign * ⌊w⌋₊
  between : ∀ x, (f x).toInt ∈ Set.uIcc 0 x.toInt
  mono : ∀ x y, x ≤ y → f x ≤ f y
  keeps : rate.isNaN = true ∨ rate ≤ 0 → ∀ x, f x = x
  loses : 1 ≤ rate → ∀ x, f x = 0

/-- A part has the sign of the whole, or there is nothing left of it. -/
theorem sign_mul_of_nonneg {x : ℤ} (hx : 0 ≤ x) (hk : k ≤ x.natAbs) : x.sign * k = k := by
  rcases hx.eq_or_lt with rfl | hpos
  · rw [Nat.le_zero.mp hk, Nat.cast_zero, mul_zero]
  · rw [Int.sign_eq_one_of_pos hpos, one_mul]

/-- Where importance is not positive, the part that is left is negative or zero. -/
theorem sign_mul_of_nonpos {x : ℤ} (hx : x ≤ 0) (hk : k ≤ x.natAbs) : x.sign * k = -k := by
  rcases hx.eq_or_lt with rfl | hneg
  · rw [Nat.le_zero.mp hk, Nat.cast_zero, mul_zero, neg_zero]
  · rw [Int.sign_eq_neg_one_of_neg hneg, neg_one_mul]

/-- The part that is left has the size of the cut product. -/
theorem natAbs_sign_mul {x : ℤ} (hk : k ≤ x.natAbs) : (x.sign * k).natAbs = k := by
  rcases le_total 0 x with hx | hx
  · rw [sign_mul_of_nonneg hx hk, Int.natAbs_natCast]
  · rw [sign_mul_of_nonpos hx hk, Int.natAbs_neg, Int.natAbs_natCast]

/-- The importance that is left has the sign it had, and its size is a part of the size it had. -/
theorem exists_isPart (x : Int32) (hp : HasValue part p) (hle : p ≤ 1) :
    ∃ k, IsPart p x.toInt.natAbs k ∧ k ≤ x.toInt.natAbs ∧ (scaled x part).toInt = x.toInt.sign * k := by
  obtain ⟨w, -, hrounds, hw, hscaled⟩ := exists_scaled x hp hle
  exact ⟨⌊w⌋₊, ⟨w, hrounds, rfl⟩, Nat.floor_le_of_le hw, hscaled⟩

/-- What is left lies between zero and what there was. -/
theorem scaled_mem_uIcc (x : Int32) (hp : HasValue part p) (hle : p ≤ 1) :
    (scaled x part).toInt ∈ Set.uIcc 0 x.toInt := by
  obtain ⟨k, -, hk, hscaled⟩ := exists_isPart x hp hle
  rw [Set.mem_uIcc, hscaled]
  rcases le_total 0 x.toInt with hx | hx
  · rw [sign_mul_of_nonneg hx hk]
    omega
  · rw [sign_mul_of_nonpos hx hk]
    omega

/-- Of more importance more is left. -/
theorem scaled_mono {x y : Int32} (hxy : x ≤ y) (hp : HasValue part p) (hle : p ≤ 1) :
    scaled x part ≤ scaled y part := by
  obtain ⟨k, hpart, hk, hx⟩ := exists_isPart x hp hle
  obtain ⟨l, hpart', hl, hy⟩ := exists_isPart y hp hle
  have hmono {n n' k k' : ℕ} (h : IsPart p n k) (h' : IsPart p n' k') (hn : n ≤ n') : k ≤ k' :=
    h.mono h' (mul_le_mul_of_nonneg_right (Nat.cast_le.mpr hn) hp.nonneg)
  rw [Int32.le_iff_toInt_le] at hxy ⊢
  rw [hx, hy]
  -- On the two sides of zero the magnitudes are ordered the opposite way.
  rcases le_total 0 x.toInt with hx0 | hx0
  · have hle := hmono hpart hpart' (by omega)
    rw [sign_mul_of_nonneg hx0 hk, sign_mul_of_nonneg (hx0.trans hxy) hl]
    omega
  · rw [sign_mul_of_nonpos hx0 hk]
    rcases le_total 0 y.toInt with hy0 | hy0
    · rw [sign_mul_of_nonneg hy0 hl]
      omega
    · have hle := hmono hpart' hpart (by omega)
      rw [sign_mul_of_nonpos hy0 hl]
      omega

/-- At the factor one nothing is lost. -/
theorem scaled_of_one (x : Int32) (hp : HasValue part 1) : scaled x part = x := by
  obtain ⟨k, hpart, hk, hscaled⟩ := exists_isPart x hp le_rfl
  have hroom := natAbs_toInt_le x
  have hwhole := (isPart_one (by rw [lead_binary64]; omega)).mono hpart le_rfl
  rw [← Int32.toInt_inj, hscaled, le_antisymm hk hwhole, Int.sign_mul_natAbs]

/-- At the factor zero all is lost. -/
theorem scaled_of_zero (x : Int32) (hp : HasValue part 0) : scaled x part = 0 := by
  obtain ⟨k, hpart, -, hscaled⟩ := exists_isPart x hp zero_le_one
  have hnone := hpart.mono (isPart_zero _) le_rfl
  rw [← Int32.toInt_inj, hscaled, Nat.le_zero.mp hnone, Nat.cast_zero, mul_zero]
  rfl

/-- At each rate, also one that is no number, importance fades as the rounded factor says. -/
theorem fades_faded (rate : Float) : Fades rate (faded rate) := by
  obtain ⟨c, hc, hle, hsmall, hlarge⟩ := exists_clampedRate rate
  obtain ⟨p, hp, hrounds, hple⟩ := exists_remainder hc hle
  refine
    { exact := ⟨c, p, hc, hp, hrounds, fun x => exists_scaled x hp hple⟩
      between := fun x => scaled_mem_uIcc x hp hple
      mono := fun x y hxy => scaled_mono hxy hp hple
      keeps := fun h x => scaled_of_one x ?_
      loses := fun h x => scaled_of_zero x ?_ }
  · rw [hsmall h, sub_zero] at hrounds
    rwa [hrounds.eq_of_representable representable_one] at hp
  · rw [hlarge h, sub_self] at hrounds
    rwa [hrounds.eq_of_representable representable_zero] at hp

/-- A greater rate leaves no more. -/
theorem natAbs_faded_le (h : clampedRate rate ≤ clampedRate rate') (x : Int32) :
    (faded rate' x).toInt.natAbs ≤ (faded rate x).toInt.natAbs := by
  obtain ⟨c, hc, hle, -⟩ := exists_clampedRate rate
  obtain ⟨c', hc', hle', -⟩ := exists_clampedRate rate'
  obtain ⟨p, hp, hrounds, hple⟩ := exists_remainder hc hle
  obtain ⟨p', hp', hrounds', hple'⟩ := exists_remainder hc' hle'
  have hpp : p' ≤ p := hrounds'.mono hrounds (sub_le_sub_left ((hc.le_iff hc').mp h) 1)
  obtain ⟨k, hpart, hk, hscaled⟩ := exists_isPart x hp hple
  obtain ⟨k', hpart', hk', hscaled'⟩ := exists_isPart x hp' hple'
  rw [faded, faded, hscaled, hscaled', natAbs_sign_mul hk, natAbs_sign_mul hk']
  exact hpart'.mono hpart (mul_le_mul_of_nonneg_left hpp (Nat.cast_nonneg _))

end Store

namespace Space

/-- Decay never fails. It takes from every atom a part of its short-term importance and changes nothing else
in the store. What is left lies between zero and what there was, more importance leaves no less, a greater
rate leaves no more, and the focus is the top of what is left. -/
theorem decay_shrinks (space : Space) (rate : Float) :
    let after := space.decay rate
    space.act (.decay rate) = (.ok .done, after) ∧
    space.store.Revalued (fun a => a.withSti (Store.faded rate a.sti)) after.store ∧
    Store.Fades rate (Store.faded rate) ∧
    (∀ rate', clampedRate rate ≤ clampedRate rate' → ∀ x,
      (Store.faded rate' x).toInt.natAbs ≤ (Store.faded rate x).toInt.natAbs) ∧
    (space.store.Sound → after.store.IsTop space.allocator.focusSize after.allocator.focus) := by
  have hdecay : space.Refocuses (.decay rate) := ⟨trivial, rfl⟩
  exact ⟨rfl, space.store.revalued_decay rate, Store.fades_faded rate, fun _ => Store.natAbs_faded_le,
    fun hs => isTop_of_refocuses hs hdecay⟩

/-- Three nodes, one with importance below zero. -/
def fadingActions : List Action :=
  [.createNode .concept (some "a"), .createNode .concept (some "b"), .createNode .concept (some "c"),
    .about 1 (.addSti 100), .about 2 (.addSti (-15)), .about 3 (.addSti 7)]

/-- A tenth is taken away. A rate above one would take everything, and one that is no number nothing. -/
theorem decay_shrinks_tenth :
    ∃ space after : Space, space = ((ofSettings {}).run fadingActions).2 ∧ after = space.decay 0.1 ∧
      after.store.atoms.map Atom.sti = [90, -13, 6] ∧
      space.store.Revalued (fun a => a.withSti (Store.faded 0.1 a.sti)) after.store ∧
      after.store.IsTop space.allocator.focusSize after.allocator.focus ∧
      (∀ x, (Store.faded 2 x).toInt.natAbs ≤ (Store.faded 0.1 x).toInt.natAbs) ∧
      (∀ x, Store.faded 2 x = 0) ∧ ∀ x, Store.faded (0 / 0) x = x := by
  have hs : (((ofSettings {}).run fadingActions).2).store.Sound :=
    (Reachable.filed ⟨{}, fadingActions, rfl⟩).sound
  obtain ⟨-, hrevalued, -, hgreater, htop⟩ := decay_shrinks ((ofSettings {}).run fadingActions).2 0.1
  obtain ⟨-, -, hall, -, -⟩ := decay_shrinks ((ofSettings {}).run fadingActions).2 2
  obtain ⟨-, -, hnone, -, -⟩ := decay_shrinks ((ofSettings {}).run fadingActions).2 (0 / 0)
  exact ⟨_, _, rfl, rfl, by decide +kernel, hrevalued, htop hs, hgreater 2 (by decide +kernel),
    hall.loses (by decide), hnone.keeps (.inl rfl)⟩

end Space

end BeliefGraph
