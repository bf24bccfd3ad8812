import BeliefGraph.Proofs.Numeric.Arithmetic
import BeliefGraph.Truth.Formula

/-!
# Combinators keep truth values normalized

Over the reals every combinator maps the unit interval to itself; here this is shown of the rounded
operations. A product is rounded to at most its factors, a quotient of rounded numbers stays at most one
since rounding is monotone. The sum of a disjunction may be rounded up and its product down: `a + b - 1`
is a single-precision number that is at most `a * b`, so the rounded product is no smaller, and the
difference is at most half a unit above one, which is rounded to one (`inUnitInterval_disjoin`).
-/

namespace BeliefGraph

namespace Single

open Floating
open Truth (inUnitInterval)

variable {x y : Float32} {v w : ℚ}

/-! ## Operations on the unit interval -/

/-- A product is at most each of its factors, also after rounding. -/
theorem HasValue.exists_mul_unit (hx : HasValue x v) (hv : v ≤ 1) (hy : HasValue y w) (hw : w ≤ 1) :
    ∃ p, HasValue (x * y) p ∧ Rounds .binary32 (v * w) p ∧ p ≤ v ∧ p ≤ w := by
  have hleft : v * w ≤ v := mul_le_of_le_one_right hx.nonneg hw
  have hright : v * w ≤ w := mul_le_of_le_one_left hy.nonneg hv
  obtain ⟨p, hp, hrounds⟩ := hx.mul hy (by linarith)
  exact ⟨p, hp, hrounds, hrounds.le hx.representable hleft, hrounds.le hy.representable hright⟩

/-- A product of two numbers in the unit interval stays in it when it is rounded. -/
theorem inUnitInterval_mul (hx : inUnitInterval x = true) (hy : inUnitInterval y = true) :
    inUnitInterval (x * y) = true := by
  obtain ⟨v, hx, hv⟩ := inUnitInterval_iff.mp hx
  obtain ⟨w, hy, hw⟩ := inUnitInterval_iff.mp hy
  obtain ⟨p, hp, -, hle, -⟩ := hx.exists_mul_unit hv hy hw
  exact inUnitInterval_iff.mpr ⟨p, hp, hle.trans hv⟩

/-- The difference of one and a number up to one is a number up to one. -/
theorem HasValue.exists_one_sub (hx : HasValue x v) (hv : v ≤ 1) :
    ∃ d, HasValue (1 - x) d ∧ d ≤ 1 := by
  have hnonneg := hx.nonneg
  obtain ⟨d, hd, hrounds⟩ := hasValue_one.sub hx hv (by linarith)
  exact ⟨d, hd, hrounds.le representable_one (by linarith)⟩

/-- What a number in the unit interval lacks of one is in the interval. -/
theorem inUnitInterval_one_sub (hx : inUnitInterval x = true) : inUnitInterval (1 - x) = true := by
  obtain ⟨v, hx, hv⟩ := inUnitInterval_iff.mp hx
  exact inUnitInterval_iff.mpr (hx.exists_one_sub hv)

/-- A quotient of a number by one that is no smaller. -/
theorem HasValue.inUnitInterval_div (hx : HasValue x v) (hy : HasValue y w) (hpos : 0 < w)
    (hle : v ≤ w) : inUnitInterval (x / y) = true := by
  have hquotient : v / w ≤ 1 := (div_le_one hpos).mpr hle
  obtain ⟨r, hr, hrounds⟩ := hx.div hy hpos (by linarith)
  exact inUnitInterval_iff.mpr ⟨r, hr, hrounds.le representable_one hquotient⟩

/-- Half of a rounded sum of two numbers in the unit interval is in it. -/
theorem inUnitInterval_half_sum (hx : inUnitInterval x = true) (hy : inUnitInterval y = true) :
    inUnitInterval ((x + y) / 2) = true := by
  obtain ⟨v, hx, hv⟩ := inUnitInterval_iff.mp hx
  obtain ⟨w, hy, hw⟩ := inUnitInterval_iff.mp hy
  obtain ⟨s, hs, hrounds⟩ := hx.add hy (by linarith)
  exact hs.inUnitInterval_div hasValue_two (by norm_num)
    (hrounds.le hasValue_two.representable (by linarith))

/-- In units of the finer of two summands, what their sum has above one is a whole number, and it is no
larger than that summand if the other one is at most one. -/
theorem representable_excess_of_le {m m' : ℕ} {e e' : ℤ} (hx : Placed .binary32 m e) (hle : e ≤ e') (he : e ≤ 0)
    (hw : m' * (2 : ℚ) ^ e' ≤ 1) (hsum : 1 ≤ m * (2 : ℚ) ^ e + m' * 2 ^ e') :
    Representable .binary32 (m * 2 ^ e + m' * 2 ^ e' - 1) := by
  obtain ⟨gap, rfl⟩ := Int.le.dest hle
  obtain ⟨unit, hunit⟩ := Int.eq_ofNat_of_zero_le (neg_nonneg.mpr he)
  have hpos := two_zpow_pos e
  -- both numbers and the one are whole multiples of the smaller unit, and so is the excess
  have hone : (2 : ℚ) ^ unit * 2 ^ e = 1 := by
    rw [← zpow_natCast, ← zpow_add₀ (by norm_num), ← hunit, neg_add_cancel, zpow_zero]
  rw [zpow_add₀ (by norm_num), zpow_natCast] at hw hsum ⊢
  have hother : m' * 2 ^ gap ≤ 2 ^ unit := by
    have : (m' : ℚ) * 2 ^ gap ≤ 2 ^ unit := le_of_mul_le_mul_right (by linarith) hpos
    exact_mod_cast this
  have hunits : 2 ^ unit ≤ m + m' * 2 ^ gap := by
    have : (2 : ℚ) ^ unit ≤ m + m' * 2 ^ gap := le_of_mul_le_mul_right (by linarith) hpos
    exact_mod_cast this
  have hlt : m < 2 ^ 24 := by exact_mod_cast hx.lt
  refine ⟨m + m' * 2 ^ gap - 2 ^ unit, e, by rw [lead_binary32]; omega, hx.least, ?_⟩
  rw [Nat.cast_sub hunits]
  push_cast
  linarith

/-- What a sum of two numbers up to one has above one needs no more bits than they do. -/
theorem representable_excess (hx : Representable .binary32 v) (hv : v ≤ 1) (hy : Representable .binary32 w) (hw : w ≤ 1)
    (hsum : 1 ≤ v + w) : Representable .binary32 (v + w - 1) := by
  obtain ⟨m, e, hplaced, rfl⟩ := hx.exists_placed
  obtain ⟨m', e', hplaced', rfl⟩ := hy.exists_placed
  have he : e ≤ -23 := hplaced.exponent_le (by linarith)
  have he' : e' ≤ -23 := hplaced'.exponent_le (by linarith)
  rcases le_total e e' with hle | hle
  · exact representable_excess_of_le hplaced hle (by omega) hw hsum
  · rw [add_comm] at hsum ⊢
    exact representable_excess_of_le hplaced' hle (by omega) hv hsum

/-- The probabilistic sum stays in the unit interval, although each of its three steps is rounded. -/
theorem inUnitInterval_disjoin (hx : inUnitInterval x = true) (hy : inUnitInterval y = true) :
    inUnitInterval (x + y - x * y) = true := by
  obtain ⟨v, hx, hv⟩ := inUnitInterval_iff.mp hx
  obtain ⟨w, hy, hw⟩ := inUnitInterval_iff.mp hy
  have hv₀ := hx.nonneg
  have hw₀ := hy.nonneg
  obtain ⟨p, hp, hproduct, hpv, -⟩ := hx.exists_mul_unit hv hy hw
  obtain ⟨s, hs, hsum⟩ := hx.add hy (by linarith)
  have hps : p ≤ s := hpv.trans (hsum.ge hx.representable (by linarith))
  have hp₀ := hp.nonneg
  have htwo : s ≤ 2 := hsum.le hasValue_two.representable (by linarith)
  obtain ⟨r, hr, hrounds⟩ := hs.sub hp hps (by linarith)
  refine inUnitInterval_iff.mpr ⟨r, hr, hrounds.le_one ?_⟩
  by_cases hone : v + w ≤ 1
  · have hs₁ : s ≤ 1 := hsum.le representable_one hone
    have : (0 : ℚ) < 2 ^ (-24 : ℤ) := two_zpow_pos _
    linarith
  · -- The product is at least the excess of the sum over one.
    have hexcess : v + w - 1 ≤ v * w := by nlinarith
    have hp₁ : v + w - 1 ≤ p := hproduct.ge
      (representable_excess hx.representable hv hy.representable hw (by linarith)) hexcess
    have hs₁ : s ≤ v + w + 2 ^ (-24 : ℤ) := by
      by_cases hlt : v + w < 2
      · exact hsum.le_add hlt
      · have : (0 : ℚ) < 2 ^ (-24 : ℤ) := two_zpow_pos _
        linarith
    linarith

end Single

namespace Truth

open Single

/-- A truth value is normalized if its strength and its confidence are in the unit interval. -/
theorem isNormalized_iff {t : Truth} : t.isNormalized = true ↔
    inUnitInterval t.strength = true ∧ inUnitInterval t.confidence = true :=
  Bool.and_eq_true_iff

variable {a b : Truth}

/-- The truth value of the unknown is normalized. -/
theorem isNormalized_unknown : unknown.isNormalized = true := by decide

/-- A deduction from normalized truth values is normalized. -/
theorem isNormalized_deduction (ha : a.isNormalized = true) (hb : b.isNormalized = true) :
    (deduction a b).isNormalized = true := by
  rw [isNormalized_iff] at ha hb ⊢
  exact ⟨inUnitInterval_mul ha.1 hb.1, inUnitInterval_mul ha.2 hb.2⟩

/-- An induction from normalized truth values is normalized. -/
theorem isNormalized_induction (ha : a.isNormalized = true) (hb : b.isNormalized = true) :
    (induction a b).isNormalized = true := by
  rw [isNormalized_iff] at ha hb ⊢
  have hscale : inUnitInterval 0.9 = true := by decide
  have hhalf : inUnitInterval 0.5 = true := by decide
  refine ⟨?_, inUnitInterval_mul (inUnitInterval_mul ha.2 hb.2) hscale⟩
  unfold induction
  dsimp only
  split
  · exact hhalf
  · next hlarge =>
    obtain ⟨v, hv, hv₁⟩ := inUnitInterval_iff.mp ha.1
    obtain ⟨w, hw, hw₁⟩ := inUnitInterval_iff.mp hb.1
    obtain ⟨agree, hagree, -, hagree₁, -⟩ := hv.exists_mul_unit hv₁ hw hw₁
    obtain ⟨v', hv', hv'₁⟩ := hv.exists_one_sub hv₁
    obtain ⟨w', hw', hw'₁⟩ := hw.exists_one_sub hw₁
    obtain ⟨differ, hdiffer, -, hdiffer₁, -⟩ := hv'.exists_mul_unit hv'₁ hw' hw'₁
    obtain ⟨sum, hsum, hrounds⟩ := hagree.add hdiffer (by linarith)
    have hle : agree ≤ sum := hrounds.ge hagree.representable (by linarith [hdiffer.nonneg])
    have hsum₂ : sum ≤ 2 := hrounds.le hasValue_two.representable (by linarith)
    refine hagree.inUnitInterval_div hsum (lt_of_le_of_ne hsum.nonneg ?_) hle
    -- Zero is below the bound that the denominator reaches.
    rintro rfl
    obtain ⟨bound, hbound, -⟩ := inUnitInterval_iff.mp (by decide : inUnitInterval negligible = true)
    have hpos : (0 : Float32) < negligible := by decide
    rw [hasValue_zero.lt_iff hbound] at hpos
    exact hlarge (((hsum.abs (by norm_num)).lt_iff hbound).mpr hpos)

/-- An abduction from normalized truth values is normalized, since it is a deduction scaled down. -/
theorem isNormalized_abduction (ha : a.isNormalized = true) (hb : b.isNormalized = true) :
    (abduction a b).isNormalized = true := by
  rw [isNormalized_iff] at ha hb ⊢
  exact ⟨inUnitInterval_mul (inUnitInterval_mul ha.1 hb.1) (by decide),
    inUnitInterval_mul (inUnitInterval_mul ha.2 hb.2) (by decide)⟩

/-- A revision is normalized: neither quotient is rounded above one. -/
theorem isNormalized_revision (ha : a.isNormalized = true) (hb : b.isNormalized = true) :
    (revision a b).isNormalized = true := by
  rw [isNormalized_iff] at ha hb
  obtain ⟨v, hv, hv₁⟩ := inUnitInterval_iff.mp ha.1
  obtain ⟨w, hw, hw₁⟩ := inUnitInterval_iff.mp hb.1
  obtain ⟨c, hc, hc₁⟩ := inUnitInterval_iff.mp ha.2
  obtain ⟨d, hd, hd₁⟩ := inUnitInterval_iff.mp hb.2
  obtain ⟨total, htotal, hrounds⟩ := hc.add hd (by linarith)
  have htotal₂ : total ≤ 2 := hrounds.le hasValue_two.representable (by linarith)
  unfold revision
  dsimp only
  split
  · next hpos =>
    rw [hasValue_zero.lt_iff htotal] at hpos
    rw [isNormalized_iff]
    constructor
    · obtain ⟨left, hleft, -, -, hleft₁⟩ := hv.exists_mul_unit hv₁ hc hc₁
      obtain ⟨right, hright, -, -, hright₁⟩ := hw.exists_mul_unit hw₁ hd hd₁
      -- rounding keeps the order, so the rounded weighted sum is at most the rounded total
      obtain ⟨sum, hsum, hsumRounds⟩ := hleft.add hright (by linarith)
      exact hsum.inUnitInterval_div htotal hpos (hsumRounds.mono hrounds (by linarith))
    · obtain ⟨next, hnext, hnextRounds⟩ := htotal.add hasValue_one (by linarith)
      have hle : total ≤ next := hnextRounds.ge htotal.representable (by linarith)
      exact htotal.inUnitInterval_div hnext (by linarith) hle
  · exact isNormalized_unknown

/-- A conjunction of normalized truth values is normalized. -/
theorem isNormalized_conjunction (ha : a.isNormalized = true) (hb : b.isNormalized = true) :
    (conjunction a b).isNormalized = true :=
  isNormalized_deduction ha hb

/-- A disjunction of normalized truth values is normalized. -/
theorem isNormalized_disjunction (ha : a.isNormalized = true) (hb : b.isNormalized = true) :
    (disjunction a b).isNormalized = true := by
  rw [isNormalized_iff] at ha hb ⊢
  exact ⟨inUnitInterval_disjoin ha.1 hb.1, inUnitInterval_half_sum ha.2 hb.2⟩

/-- The negation of a normalized truth value is normalized. -/
theorem isNormalized_negation (ha : a.isNormalized = true) : (negation a).isNormalized = true := by
  rw [isNormalized_iff] at ha ⊢
  exact ⟨inUnitInterval_one_sub ha.1, ha.2⟩

end Truth

/-! ## Formulas -/

namespace Formula

/-- From normalized inputs the formula computes a normalized truth value. -/
def Normalizes (formula : Formula) : Prop :=
  ∀ inputs : List Truth, (∀ t ∈ inputs, t.isNormalized = true) →
    (formula.compute inputs).isNormalized = true

/-- What a combination keeps normalized, folding it over some inputs does. -/
theorem isNormalized_fold {combine : Truth → Truth → Truth}
    (hcombine : ∀ {a b : Truth}, a.isNormalized = true → b.isNormalized = true →
      (combine a b).isNormalized = true)
    (inputs : List Truth) (h : ∀ t ∈ inputs, t.isNormalized = true) :
    (fold combine inputs).isNormalized = true := by
  cases inputs with
  | nil => exact Truth.isNormalized_unknown
  | cons first rest =>
    rw [List.forall_mem_cons] at h
    exact List.foldlRecOn (motive := fun t => t.isNormalized = true) rest combine h.1
      fun _ hacc t ht => hcombine hacc (h.2 t ht)

/-- Every built-in formula computes normalized truth values from normalized inputs. -/
theorem normalizes_of_mem_builtIn {formula : Formula} (h : formula ∈ builtIn) :
    formula.Normalizes := by
  intro inputs hinputs
  cases formula with
  | deduction => exact isNormalized_fold Truth.isNormalized_deduction inputs hinputs
  | induction => exact isNormalized_fold Truth.isNormalized_induction inputs hinputs
  | abduction => exact isNormalized_fold Truth.isNormalized_abduction inputs hinputs
  | revision => exact isNormalized_fold Truth.isNormalized_revision inputs hinputs
  | conjunction => exact isNormalized_fold Truth.isNormalized_conjunction inputs hinputs
  | disjunction => exact isNormalized_fold Truth.isNormalized_disjunction inputs hinputs
  | negation =>
    cases inputs with
    | nil => exact Truth.isNormalized_unknown
    | cons first rest =>
      have hfirst := hinputs first List.mem_cons_self
      exact Truth.isNormalized_negation hfirst
  | custom combine => simp [builtIn] at h

end Formula

end BeliefGraph
