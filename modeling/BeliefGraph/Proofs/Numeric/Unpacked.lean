import Mathlib.Algebra.Order.Floor.Ring
import Mathlib.Algebra.Order.Ring.Nat
import Mathlib.Data.Nat.Cast.Order.Field
import Mathlib.Data.Rat.Floor
import Mathlib.Tactic.FieldSimp
import BeliefGraph.Proofs.Numeric.Rounding

/-!
# Arithmetic of unpacked numbers

An arithmetic operation on finite numbers computes an exact mantissa and exponent, shifts the mantissa
to the length that the format has room for, and rounds once. `Represents` says what the two residual
bits know about the bits shifted out; a shift keeps it (`Represents.shiftRight`), and rounding
by it is rounding to the nearest whole number (`Represents.nearest`). What is left for each operation is
that its mantissa is long enough before the shift, or its exponent small enough
(`exists_shows_roundWithAccuracy`).

Values that are not below zero suffice: `Shows` leaves out the other finite numbers, the infinities and
the one that is no number.
-/

namespace BeliefGraph.Floating

open Float.Model Float.Model.UnpackedFloat

/-! ## Residual bits -/

/-- What a mantissa and the two bits behind it say about a number. -/
def Represents : ExtendedMantissa → ℚ → Prop
  | ⟨m, false, false⟩, q => q = m
  | ⟨m, false, true⟩, q => m < q ∧ q < m + 1 / 2
  | ⟨m, true, false⟩, q => q = m + 1 / 2
  | ⟨m, true, true⟩, q => m + 1 / 2 < q ∧ q < m + 1

namespace Represents

variable {em : ExtendedMantissa} {q : ℚ}

/-- A mantissa with nothing behind it represents itself. -/
theorem exact (m : ℕ) : Represents (.ofMantissaAndAccuracy m .exact) m := rfl

/-- What is represented lies between the mantissa and the next one. -/
theorem bounds (h : Represents em q) : em.mantissa ≤ q ∧ q < em.mantissa + 1 := by
  obtain ⟨m, round, sticky⟩ := em
  cases round <;> cases sticky <;> simp only [Represents] at h <;> constructor <;> linarith

/-- The two bits decide the rounding. -/
theorem nearest (h : Represents em q) : Nearest q em.roundedMantissa := by
  obtain ⟨m, round, sticky⟩ := em
  cases round <;> cases sticky <;> simp only [Represents] at h
  · rw [h]
    exact nearest_natCast m
  · show Nearest q m
    refine ⟨by linarith, by linarith, ?_⟩
    rintro (hq | hq) <;> linarith
  · -- A half goes to the even one of the two neighbours.
    show Nearest q (m + m % 2)
    rcases Nat.mod_two_eq_zero_or_one m with hbit | hbit
    · rw [hbit, Nat.add_zero]
      exact ⟨by linarith, by linarith, fun _ => Nat.even_iff.mpr hbit⟩
    · rw [hbit]
      refine ⟨by push_cast; linarith, by push_cast; linarith, fun _ => Nat.even_iff.mpr ?_⟩
      rw [Nat.add_mod, hbit]
  · show Nearest q (m + 1)
    refine ⟨by push_cast; linarith, by push_cast; linarith, ?_⟩
    rintro (hq | hq) <;> push_cast at hq <;> linarith

/-- A shift by one bit halves what is represented. -/
theorem shiftRightOne (h : Represents em q) : Represents em.shiftRightOne (q / 2) := by
  obtain ⟨m, round, sticky⟩ := em
  have hm : (m : ℚ) = 2 * (m / 2 : ℕ) + (m % 2 : ℕ) := by exact_mod_cast (Nat.div_add_mod m 2).symm
  -- The last bit of the mantissa becomes the round bit, and that one is kept in the sticky bit.
  obtain ⟨bit, hround, hbit⟩ : ∃ bit : Bool, (m % 2 != 0) = bit ∧ m % 2 = bit.toNat := by
    rcases Nat.mod_two_eq_zero_or_one m with hbit | hbit <;> exact ⟨_, rfl, by rw [hbit]; rfl⟩
  rw [hbit] at hm
  cases bit <;> cases round <;> cases sticky <;>
    simp only [Represents, ExtendedMantissa.shiftRightOne, hround, Bool.or_self, Bool.or_true,
      Bool.or_false, Bool.toNat_false, Bool.toNat_true, Nat.cast_zero, Nat.cast_one] at h hm ⊢
  all_goals
    first
    | constructor <;> linarith
    | linarith

/-- A shift by some bits divides what is represented by that power of two. -/
theorem shiftRight (h : Represents em q) (count : ℕ) : Represents (em >>> count) (q / 2 ^ count) := by
  show Represents (count.repeat ExtendedMantissa.shiftRightOne em) _
  induction count with
  | zero => simpa [Nat.repeat] using h
  | succ count ih =>
    rw [Nat.repeat, pow_succ, ← div_div]
    exact ih.shiftRightOne

/-- The remainder of a division as residual bits. -/
theorem ofFraction {a b : ℕ} (hb : 0 < b) :
    Represents (.ofMantissaAndAccuracy (a / b) (accuracyOfFraction (a % b) b)) ((a : ℚ) / b) := by
  have hb' : (0 : ℚ) < b := by exact_mod_cast hb
  have ha : (a : ℚ) / b = (a / b : ℕ) + (a % b : ℕ) / b := by
    rw [eq_comm, add_div' _ _ _ hb'.ne', ← Nat.cast_mul, ← Nat.cast_add, Nat.div_add_mod']
  have hrest : ((a % b : ℕ) : ℚ) / b < 1 := by
    rw [div_lt_one hb']
    exact_mod_cast Nat.mod_lt a hb
  unfold accuracyOfFraction
  split
  · next hzero =>
    rw [ha, hzero, Nat.cast_zero, zero_div, add_zero]
    exact exact _
  · next hzero =>
    have hpos : 0 < ((a % b : ℕ) : ℚ) / b := by positivity
    -- The two bits behind the mantissa say whether the rest is less than a half, a half, or more.
    rcases Nat.lt_trichotomy (2 * (a % b)) b with hless | hhalf | hmore
    · rw [Nat.compare_eq_lt.mpr hless]
      have hlt : ((a % b : ℕ) : ℚ) / b < 1 / 2 := by
        rw [div_lt_div_iff₀ hb' two_pos]
        exact_mod_cast (by omega : a % b * 2 < 1 * b)
      exact ⟨by linarith, by linarith⟩
    · rw [Nat.compare_eq_eq.mpr hhalf]
      have heq : ((a % b : ℕ) : ℚ) / b = 1 / 2 := by
        rw [div_eq_div_iff hb'.ne' two_ne_zero]
        exact_mod_cast (by omega : a % b * 2 = 1 * b)
      show (a : ℚ) / b = _
      linarith
    · rw [Nat.compare_eq_gt.mpr hmore]
      have hgt : 1 / 2 < ((a % b : ℕ) : ℚ) / b := by
        rw [div_lt_div_iff₀ two_pos hb']
        exact_mod_cast (by omega : 1 * b < a % b * 2)
      exact ⟨by linarith, by linarith⟩

end Represents

/-! ## Rounding an unpacked number -/

variable {F : Float.Model.Format}

/-- The values of unpacked numbers that have one and are not below zero. -/
inductive Shows (F : Float.Model.Format) : UnpackedFloat → ℚ → Prop
  | zero (sign : Sign) : Shows F (.zero sign) 0
  | finite {m : ℕ} {e : ℤ} (hm : 0 < m) (h : Placed F m e) :
      Shows F (.finite .positive m e hm) (m * 2 ^ e)

/-- A significand that belongs to its exponent is shown as the number that it makes, zero among them. -/
theorem shows_of_placed {m : ℕ} {e : ℤ} (h : Placed F m e) :
    Shows F (if h : m = 0 then .zero .positive else .finite .positive m e (Nat.pos_of_ne_zero h))
      (m * 2 ^ e) := by
  by_cases hm : m = 0
  · rw [dif_pos hm, hm, Nat.cast_zero, zero_mul]
    exact .zero _
  · rw [dif_neg hm]
    exact .finite _ h

/-- The exponent that a significand is moved to leaves it as long as the format has room for. -/
theorem targetExponent_eq (F : Float.Model.Format) (m : ℕ) (e : ℤ) :
    F.targetExponent (totalExponent m e)
      = max (m.log2 + e - F.mantissaBitsWithoutImplicit) F.minExponent := by
  unfold Float.Model.Format.targetExponent totalExponent Float.Model.Format.mantissaBits
  push_cast
  congr 1
  ring

/-- A significand of full length has its leading bit at the full length. -/
theorem le_log2_of_lead_le {m : ℕ} (h : lead F ≤ m) : F.mantissaBitsWithoutImplicit ≤ m.log2 :=
  (Nat.le_log2 (by have := lead_pos F; omega)).mpr h

/-- A number with enough bits is placed by a shift to the right. -/
theorem placed_shift {m : ℕ} {e : ℤ} {q : ℚ} (hq : m ≤ q ∧ q < m + 1)
    (hlong : lead F ≤ m ∨ e ≤ F.minExponent) {count : ℕ}
    (hcount : (max (m.log2 + e - F.mantissaBitsWithoutImplicit) F.minExponent - e).toNat = count) :
    Placed F (q / 2 ^ count) (e + count) := by
  have hpow : (0 : ℚ) < 2 ^ count := by positivity
  have hlog := le_log2_of_lead_le (F := F) (m := m)
  constructor
  · have : (0 : ℚ) ≤ m := by positivity
    exact div_nonneg (by linarith) hpow.le
  · rw [div_lt_iff₀ hpow]
    have hm : m + 1 ≤ 2 ^ (F.mantissaBitsWithoutImplicit + 1 + count) :=
      Nat.lt_log2_self.trans_le (Nat.pow_le_pow_right (by omega) (by omega))
    have hm' : (m : ℚ) + 1 ≤ 2 * lead F * 2 ^ count := by
      rw [pow_add, pow_succ, mul_comm (2 ^ F.mantissaBitsWithoutImplicit)] at hm
      exact_mod_cast hm
    linarith
  · omega
  · -- Above the least exponent the shift has taken the leading bit to where it belongs.
    by_cases hleast : e + count = F.minExponent
    · exact .inl hleast
    · have hbits : F.mantissaBitsWithoutImplicit + count = m.log2 := by omega
      refine .inr ?_
      have hpositive := F.hm
      have hm : lead F * 2 ^ count ≤ m := by
        rw [lead, ← pow_add, hbits]
        exact Nat.log2_self_le (by rintro rfl; rw [Nat.log2_zero] at hbits; omega)
      have hm' : (lead F : ℚ) * 2 ^ count ≤ m := by exact_mod_cast hm
      rw [le_div_iff₀ hpow]
      linarith

/-- A carry into one more bit is shifted out again; nothing is lost. -/
theorem exists_carry {n : ℕ} {e : ℤ} (hn : n ≤ 2 * lead F) (hleast : F.minExponent ≤ e)
    (hnormal : e = F.minExponent ∨ lead F ≤ n) :
    ∃ (m : ℕ) (e' : ℤ), shiftToTargetExponent F n e .exact = (⟨m, false, false⟩, e') ∧
      Placed F m e' ∧ (m : ℚ) * 2 ^ e' = n * 2 ^ e := by
  unfold shiftToTargetExponent shiftToExponent
  dsimp only
  rw [targetExponent_eq]
  have hlead := lead_pos F
  -- Rounding up can carry into one more bit, and then only the leading bit is set.
  by_cases hcarry : n = 2 * lead F
  · have hlog : n.log2 = F.mantissaBitsWithoutImplicit + 1 := by
      rw [hcarry, lead, ← pow_succ', Nat.log2_two_pow]
    have hcount : (max ((n.log2 : ℤ) + e - F.mantissaBitsWithoutImplicit) F.minExponent - e).toNat
        = 1 := by
      rw [hlog]
      omega
    have hhalf : n / 2 = lead F := by omega
    have heven : n % 2 = 0 := by omega
    have hshift : ExtendedMantissa.ofMantissaAndAccuracy n .exact >>> 1 = ⟨lead F, false, false⟩ := by
      show (⟨n / 2, n % 2 != 0, false⟩ : ExtendedMantissa) = _
      rw [hhalf, heven]
      rfl
    rw [hcount, hshift]
    refine ⟨lead F, e + 1, rfl, ⟨by positivity, ?_, by omega, .inr le_rfl⟩, ?_⟩
    · have : (0 : ℚ) < lead F := by exact_mod_cast hlead
      linarith
    · rw [hcarry, zpow_add_one₀ (by norm_num)]
      push_cast
      ring
  · have hlt : n < 2 * lead F := by omega
    have hlog : n.log2 ≤ F.mantissaBitsWithoutImplicit := by
      by_cases hzero : n = 0
      · rw [hzero, Nat.log2_zero]
        exact Nat.zero_le _
      · refine Nat.le_of_lt_succ ((Nat.log2_lt hzero).mpr ?_)
        rw [Nat.succ_eq_add_one, pow_succ']
        exact hlt
    have hcount : (max ((n.log2 : ℤ) + e - F.mantissaBitsWithoutImplicit) F.minExponent - e).toNat
        = 0 := by omega
    rw [hcount]
    refine ⟨n, e, by simp; rfl, ⟨by positivity, by exact_mod_cast hlt, hleast, ?_⟩, rfl⟩
    exact_mod_cast hnormal

/-- A number with enough bits is rounded once. -/
theorem exists_shows_roundWithAccuracy {m : ℕ} {e : ℤ} {accuracy : Accuracy} {q : ℚ}
    (hq : Represents (.ofMantissaAndAccuracy m accuracy) q)
    (hlong : lead F ≤ m ∨ e ≤ F.minExponent) :
    ∃ w, Shows F (roundWithAccuracy F .positive m e accuracy) w ∧ Rounds F (q * 2 ^ e) w := by
  have hmantissa : (ExtendedMantissa.ofMantissaAndAccuracy m accuracy).mantissa = m := by
    rcases accuracy with _ | (_ | _ | _) <;> rfl
  have hbounds := hq.bounds
  rw [hmantissa] at hbounds
  obtain ⟨count, hcount⟩ : ∃ count,
      (max (m.log2 + e - F.mantissaBitsWithoutImplicit) F.minExponent - e).toNat = count := ⟨_, rfl⟩
  have hplaced := placed_shift hbounds hlong hcount
  have hnear := (hq.shiftRight count).nearest
  have hfirst : shiftToTargetExponent F m e accuracy
      = (ExtendedMantissa.ofMantissaAndAccuracy m accuracy >>> count, e + count) := by
    unfold shiftToTargetExponent shiftToExponent
    dsimp only
    rw [targetExponent_eq, hcount]
  unfold roundWithAccuracy
  rw [hfirst]
  dsimp only
  -- The rounded mantissa may be one bit too long; then all its other bits are zero.
  generalize (ExtendedMantissa.ofMantissaAndAccuracy m accuracy >>> count).roundedMantissa = n at *
  have hn : n ≤ 2 * lead F := hnear.mono (nearest_natCast _) (by exact_mod_cast hplaced.lt.le)
  have hnormal : e + count = F.minExponent ∨ lead F ≤ n :=
    hplaced.normal.imp_right fun hle => (nearest_natCast _).mono hnear hle
  obtain ⟨m', e', hcarry, hplaced', hvalue⟩ := exists_carry hn hplaced.least hnormal
  rw [hcarry]
  refine ⟨_, shows_of_placed hplaced', q / 2 ^ count, n, e + count, hplaced, hnear, ?_, hvalue⟩
  rw [zpow_add₀ (by norm_num), zpow_natCast]
  field_simp

/-- A whole number times a power of two is rounded once. -/
theorem exists_shows_normalize (F : Float.Model.Format) {m : ℤ} (hm : 0 ≤ m) (e : ℤ) :
    ∃ w, Shows F (UnpackedFloat.normalize F m e .positive) w ∧ Rounds F (m * 2 ^ e) w := by
  obtain ⟨m, rfl⟩ := Int.eq_ofNat_of_zero_le hm
  unfold UnpackedFloat.normalize
  rcases Nat.eq_zero_or_pos m with rfl | hpos
  · refine ⟨0, .zero _, ?_⟩
    rw [Nat.cast_zero, Int.cast_zero, zero_mul]
    exact representable_zero.rounds
  · rw [Int.compare_eq_gt.mpr (by omega)]
    unfold Float.Model.UnpackedFloat.round decreaseExponent
    dsimp only
    rw [Int.toNat_natCast, targetExponent_eq]
    obtain ⟨count, hcount⟩ : ∃ count,
        (e - max (m.log2 + e - F.mantissaBitsWithoutImplicit) F.minExponent).toNat = count := ⟨_, rfl⟩
    -- The shift to the left goes down to the exponent of the result, not below it.
    have hlong : lead F ≤ m <<< count ∨ e - count ≤ F.minExponent := by
      by_cases hleast : e - count ≤ F.minExponent
      · exact .inr hleast
      · rw [Nat.shiftLeft_eq]
        have hle : 2 ^ m.log2 * 2 ^ count ≤ m * 2 ^ count :=
          Nat.mul_le_mul_right _ (Nat.log2_self_le hpos.ne')
        rw [← pow_add] at hle
        exact .inl ((Nat.pow_le_pow_right (by omega) (by omega)).trans hle)
    obtain ⟨w, hshows, hrounds⟩ := exists_shows_roundWithAccuracy (.exact _) hlong
    rw [hcount]
    refine ⟨w, hshows, ?_⟩
    convert hrounds using 1
    rw [Nat.shiftLeft_eq, zpow_sub₀ (by norm_num), zpow_natCast]
    push_cast
    field_simp

/-! ## Arithmetic of unpacked numbers -/

/-- Lowering the exponent keeps the value. -/
theorem decreaseExponent_value (m : ℕ) {e e' : ℤ} (h : e' ≤ e) :
    ((decreaseExponent m e e').1 : ℚ) * 2 ^ e' = m * 2 ^ e := by
  obtain ⟨count, rfl⟩ := Int.le.dest h
  unfold decreaseExponent
  dsimp only
  rw [Nat.shiftLeft_eq, add_sub_cancel_left, Int.toNat_natCast, zpow_add₀ (by norm_num),
    zpow_natCast]
  push_cast
  ring

/-- The dividend is shifted to the left until the quotient has enough bits. -/
theorem exists_divCore (F : Float.Model.Format) {m m' : ℕ} (hm : 0 < m) (hm' : 0 < m') (e e' : ℤ) :
    ∃ count : ℕ, (lead F ≤ (m <<< count) / m' ∨ e - e' - count ≤ F.minExponent) ∧
      divCore F m e m' e'
        = (m <<< count / m', e - e' - count, accuracyOfFraction (m <<< count % m') m') := by
  have htarget : F.targetExponent (totalExponent m e - totalExponent m' e')
      = max ((m.log2 + e) - (m'.log2 + e') - (F.mantissaBitsWithoutImplicit + 1)) F.minExponent := by
    unfold Float.Model.Format.targetExponent totalExponent Float.Model.Format.mantissaBits
    push_cast
    congr 1
    ring
  obtain ⟨count, hcount⟩ := Int.eq_ofNat_of_zero_le
    (a := e - e' - min (e - e')
      (max ((m.log2 + e) - (m'.log2 + e') - (F.mantissaBitsWithoutImplicit + 1)) F.minExponent))
    (by omega)
  refine ⟨count, ?_, ?_⟩
  · by_cases hleast : e - e' - count ≤ F.minExponent
    · exact .inr hleast
    · refine .inl ((Nat.le_div_iff_mul_le hm').mpr ?_)
      -- The dividend is longer than the divisor by what the quotient needs.
      have hlog : F.mantissaBitsWithoutImplicit + (m'.log2 + 1) ≤ m.log2 + count := by omega
      calc lead F * m' ≤ lead F * 2 ^ (m'.log2 + 1) := Nat.mul_le_mul_left _ Nat.lt_log2_self.le
        _ ≤ 2 ^ m.log2 * 2 ^ count := by
          rw [lead, ← pow_add, ← pow_add]
          exact Nat.pow_le_pow_right (by omega) hlog
        _ ≤ m * 2 ^ count := Nat.mul_le_mul_right _ (Nat.log2_self_le hm.ne')
        _ = m <<< count := (Nat.shiftLeft_eq _ _).symm
  · unfold divCore
    dsimp only
    rw [htarget, hcount, Int.toNat_natCast]
    congr 2
    omega

namespace Shows

variable {x y : UnpackedFloat} {v w : ℚ}

/-- What is shown is a number of the format. -/
theorem representable (h : Shows F x v) : Representable F v := by
  cases h with
  | zero => exact representable_zero
  | finite _ h => exact h.representable

/-- What is shown is not below zero. -/
theorem nonneg (h : Shows F x v) : 0 ≤ v := by
  cases h with
  | zero => exact le_refl 0
  | finite _ h => exact mul_nonneg h.nonneg (two_zpow_pos _).le

/-- An operation with an exact result. -/
theorem exact (h : Shows F x v) (hw : w = v) : ∃ r, Shows F x r ∧ Rounds F w r :=
  ⟨v, h, hw ▸ h.representable.rounds⟩

/-- A product shows the rounded product. -/
theorem mul (hx : Shows F x v) (hy : Shows F y w) :
    ∃ r, Shows F (UnpackedFloat.mul F x y) r ∧ Rounds F (v * w) r := by
  cases hx with
  | zero => cases hy <;> exact exact (.zero _) (zero_mul _)
  | @finite m e hm hx =>
    cases hy with
    | zero => exact exact (.zero _) (mul_zero _)
    | @finite m' e' hm' hy =>
      have hleast := minExponent_nonpos F
      -- The product is as long as either factor, and if neither is long its exponent is small enough.
      have hlong : lead F ≤ m * m' ∨ e + e' ≤ F.minExponent := by
        rcases hx.normal with he | hlong
        · rcases hy.normal with he' | hlong
          · exact .inr (by omega)
          · have hlong' : lead F ≤ m' := by exact_mod_cast hlong
            exact .inl (hlong'.trans (Nat.le_mul_of_pos_left _ hm))
        · have hlong' : lead F ≤ m := by exact_mod_cast hlong
          exact .inl (hlong'.trans (Nat.le_mul_of_pos_right _ hm'))
      obtain ⟨r, hr, hrounds⟩ := exists_shows_roundWithAccuracy (.exact _) hlong
      refine ⟨r, hr, ?_⟩
      convert hrounds using 1
      rw [zpow_add₀ (by norm_num)]
      push_cast
      ring

/-- A sum shows the rounded sum. -/
theorem add (hx : Shows F x v) (hy : Shows F y w) :
    ∃ r, Shows F (UnpackedFloat.add F x y) r ∧ Rounds F (v + w) r := by
  cases hx with
  | zero sign =>
    cases hy with
    | zero sign' =>
      refine exact ?_ (add_zero 0)
      unfold UnpackedFloat.add
      dsimp only
      split <;> exact .zero _
    | finite hm' hy => exact exact (.finite hm' hy) (zero_add _)
  | @finite m e hm hx =>
    cases hy with
    | zero => exact exact (.finite hm hx) (add_zero _)
    | @finite m' e' hm' hy =>
      -- Both are brought to the smaller exponent, where they are added exactly.
      obtain ⟨r, hr, hrounds⟩ := exists_shows_normalize F
        (m := (decreaseExponent m e (min e e')).1 + (decreaseExponent m' e' (min e e')).1)
        (by positivity) (min e e')
      refine ⟨r, hr, ?_⟩
      convert hrounds using 1
      push_cast
      rw [add_mul, decreaseExponent_value m (min_le_left e e'),
        decreaseExponent_value m' (min_le_right e e')]

/-- A difference that is not below zero shows the rounded difference. -/
theorem sub (hx : Shows F x v) (hy : Shows F y w) (hle : w ≤ v) :
    ∃ r, Shows F (UnpackedFloat.sub F x y) r ∧ Rounds F (v - w) r := by
  cases hx with
  | zero sign =>
    cases hy with
    | zero sign' =>
      refine exact ?_ (sub_zero 0)
      unfold UnpackedFloat.sub
      dsimp only
      split <;> exact .zero _
    | @finite m' e' hm' hy =>
      have hpos : (0 : ℚ) < m' * 2 ^ e' := mul_pos (Nat.cast_pos.mpr hm') (two_zpow_pos e')
      exact absurd hle hpos.not_ge
  | @finite m e hm hx =>
    cases hy with
    | zero => exact exact (.finite hm hx) (sub_zero _)
    | @finite m' e' hm' hy =>
      have hleft := decreaseExponent_value m (min_le_left e e')
      have hright := decreaseExponent_value m' (min_le_right e e')
      obtain ⟨k, hk⟩ : ∃ k, (decreaseExponent m e (min e e')).1 = k := ⟨_, rfl⟩
      obtain ⟨k', hk'⟩ : ∃ k', (decreaseExponent m' e' (min e e')).1 = k' := ⟨_, rfl⟩
      rw [hk] at hleft
      rw [hk'] at hright
      -- Over the smaller exponent the difference is a whole number.
      have hvalue : ((k - k' : ℤ) : ℚ) * 2 ^ min e e' = m * 2 ^ e - m' * 2 ^ e' := by
        push_cast
        rw [sub_mul, hleft, hright]
      have hnonneg : (0 : ℤ) ≤ k - k' := by
        rw [← sub_nonneg, ← hvalue] at hle
        exact_mod_cast nonneg_of_mul_nonneg_left hle (two_zpow_pos _)
      obtain ⟨r, hr, hrounds⟩ := exists_shows_normalize F hnonneg (min e e')
      rw [hvalue] at hrounds
      rw [← hk, ← hk'] at hr
      exact ⟨r, hr, hrounds⟩

/-- A quotient shows the rounded quotient. -/
theorem div (hx : Shows F x v) (hy : Shows F y w) (hpos : 0 < w) :
    ∃ r, Shows F (UnpackedFloat.div F x y) r ∧ Rounds F (v / w) r := by
  cases hy with
  | zero => exact absurd hpos (lt_irrefl 0)
  | @finite m' e' hm' hy =>
    cases hx with
    | zero => exact exact (.zero _) (zero_div _)
    | @finite m e hm hx =>
      obtain ⟨count, hlong, hcore⟩ := exists_divCore F hm hm' e e'
      obtain ⟨r, hr, hrounds⟩ := exists_shows_roundWithAccuracy (.ofFraction hm') hlong
      unfold UnpackedFloat.div
      dsimp only
      rw [hcore]
      refine ⟨r, hr, ?_⟩
      convert hrounds using 1
      have hm'' : (m' : ℚ) ≠ 0 := Nat.cast_ne_zero.mpr hm'.ne'
      rw [Nat.shiftLeft_eq, zpow_sub₀ (by norm_num), zpow_sub₀ (by norm_num), zpow_natCast]
      push_cast
      field_simp

/-- Conversion to a whole number drops what is behind the point. -/
theorem toInt_eq_floor (h : Shows F x v) (low high : ℤ) : x.toInt low high = ⌊v⌋ := by
  cases h with
  | zero => exact Int.floor_zero.symm
  | @finite m e hm h =>
    show roundToInt .positive m e = _
    unfold roundToInt decreaseExponent shiftToExponent
    dsimp only
    rcases le_total 0 e with he | he
    · obtain ⟨count, rfl⟩ := Int.eq_ofNat_of_zero_le he
      rw [sub_zero, Int.toNat_natCast, sub_self, sub_self, Int.toNat_zero, Nat.shiftLeft_eq]
      show ((m * 2 ^ count : ℕ) : ℤ) = _
      rw [zpow_natCast, eq_comm, Int.floor_eq_iff]
      push_cast
      exact ⟨le_rfl, lt_add_one _⟩
    · obtain ⟨count, hcount⟩ := Int.eq_ofNat_of_zero_le (neg_nonneg.mpr he)
      obtain rfl : e = -count := by omega
      rw [sub_zero, Int.toNat_of_nonpos he, Nat.cast_zero, sub_zero, zero_sub, neg_neg,
        Int.toNat_natCast, Nat.shiftLeft_zero, zpow_neg, zpow_natCast, ← div_eq_mul_inv, eq_comm,
        Int.floor_eq_iff]
      exact ((Represents.exact m).shiftRight count).bounds

end Shows

end BeliefGraph.Floating
