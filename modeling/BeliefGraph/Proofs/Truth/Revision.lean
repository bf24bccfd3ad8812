import BeliefGraph.Proofs.Store.View
import BeliefGraph.Proofs.Truth.Normalized

/-!
# Revision and the weighted mean

The strength of a revision is the mean of two strengths, weighted by their confidences, so it ought to lie
between them. It is computed with two products, two sums and a quotient that are each rounded. Rounding
takes a small part of a number, and half the least unit of the format besides if the number is that small.
The sums are exact when they are small (`Floating.Rounds.error_of_sum`), so it is the products that lose
half a unit each, and the quotient divides this loss by the confidence there is (`HasValue.weightedMean`).

With enough confidence the strength therefore stays between the two (`revision_stays_between`). With
hardly any it need not: two truth values with the same strength and the least confidence there is are
merged to the strength zero (`revision_forgets_faint`).
-/

namespace BeliefGraph

/-- A quotient changes by at most what its two sides change by, measured by its denominator. -/
theorem abs_div_sub_div_le {s t n d : ℚ} (ht : 0 < t) (hd : 0 < d) (hst : |s| ≤ t) :
    |s / t - n / d| ≤ (|s - n| + |t - d|) / d := by
  have hsplit : s / t - n / d = (s - n - s / t * (t - d)) / d := by
    field_simp
    ring
  have hquotient : |s / t| ≤ 1 := by
    rw [abs_div, abs_of_pos ht]
    exact (div_le_one ht).mpr hst
  have hpart : |s / t * (t - d)| ≤ |t - d| := by
    rw [abs_mul]
    exact mul_le_of_le_one_left (abs_nonneg _) hquotient
  rw [hsplit, abs_div, abs_of_pos hd]
  exact div_le_div_of_nonneg_right ((abs_sub _ _).trans (by linarith)) hd.le

/-- A weighted mean lies between the numbers it is taken of. -/
theorem mean_mem_Icc {v w c d : ℚ} (hc : 0 ≤ c) (hd : 0 ≤ d) (hpos : 0 < c + d) :
    (v * c + w * d) / (c + d) ∈ Set.Icc (min v w) (max v w) := by
  constructor
  · rw [le_div_iff₀ hpos, mul_add]
    exact add_le_add (mul_le_mul_of_nonneg_right (min_le_left v w) hc)
      (mul_le_mul_of_nonneg_right (min_le_right v w) hd)
  · rw [div_le_iff₀ hpos, mul_add]
    exact add_le_add (mul_le_mul_of_nonneg_right (le_max_left v w) hc)
      (mul_le_mul_of_nonneg_right (le_max_right v w) hd)

namespace Single

open Floating
open Truth (inUnitInterval)

/-- The value of a finite number; zero stands in for the value of the others. -/
def value (x : Float32) : ℚ :=
  match x.toModel.unpack with
  | .finite .positive m e _ => m * 2 ^ e
  | .finite .negative m e _ => -(m * 2 ^ e)
  | _ => 0

variable {x y p q : Float32} {v w c d : ℚ}

/-- The value of a number is its value as a rational. -/
theorem HasValue.value_eq (h : HasValue x v) : value x = v := by
  unfold HasValue at h
  unfold value
  generalize x.toModel.unpack = u at h
  cases h <;> rfl

/-- A number in the unit interval has a value, which is at most one. -/
theorem hasValue_value (h : inUnitInterval x = true) : HasValue x (value x) ∧ value x ≤ 1 := by
  obtain ⟨v, hv, hle⟩ := inUnitInterval_iff.mp h
  rw [hv.value_eq]
  exact ⟨hv, hle⟩

/-- A weighted mean as it is computed is off by a small part of one, and by two halves of the least unit
measured by the weights. -/
theorem HasValue.weightedMean (hx : HasValue x v) (hv : v ≤ 1) (hy : HasValue y w) (hw : w ≤ 1)
    (hp : HasValue p c) (hc : c ≤ 1) (hq : HasValue q d) (hd : d ≤ 1) (hpos : 0 < p + q) :
    0 < c + d ∧ ∃ r, HasValue ((x * p + y * q) / (p + q)) r ∧
      |r - (v * c + w * d) / (c + d)| ≤ 2 ^ (-22 : ℤ) + 2 ^ (-149 : ℤ) / (c + d) := by
  have hc₀ := hp.nonneg
  have hd₀ := hq.nonneg
  obtain ⟨left, hleft, hleftRounds, -, hleftLe⟩ := hx.exists_mul_unit hv hp hc
  obtain ⟨right, hright, hrightRounds, -, hrightLe⟩ := hy.exists_mul_unit hw hq hd
  obtain ⟨sum, hsum, hsumRounds⟩ := hleft.add hright (by linarith)
  obtain ⟨total, htotal, htotalRounds⟩ := hp.add hq (by linarith)
  rw [hasValue_zero.lt_iff htotal] at hpos
  have hle : sum ≤ total := hsumRounds.mono htotalRounds (by linarith)
  have hquotient : sum / total ≤ 1 := (div_le_one hpos).mpr hle
  obtain ⟨r, hr, hrRounds⟩ := hsum.div htotal hpos (by linarith)
  have hweights : 0 < c + d := by
    by_contra hnot
    obtain ⟨rfl, rfl⟩ : c = 0 ∧ d = 0 := by constructor <;> linarith
    exact absurd (htotalRounds.le representable_zero (by norm_num)) (not_le.mpr hpos)
  refine ⟨hweights, r, hr, ?_⟩
  -- The products are at most the weights, so all that is lost is measured by these.
  have hproducts : v * c + w * d ≤ c + d :=
    add_le_add (mul_le_of_le_one_left hc₀ hv) (mul_le_of_le_one_left hd₀ hw)
  have hnumerator : |sum - (v * c + w * d)| ≤ 2 * (c + d) / 2 ^ 24 + 2 ^ (-149 : ℤ) := by
    have hsumError := hsumRounds.error_of_sum_binary32 hleft.representable hright.representable
    have hleftError := hleftRounds.error_le_binary32
    have hrightError := hrightRounds.error_le_binary32
    rw [abs_le] at hsumError hleftError hrightError ⊢
    norm_num at hsumError hleftError hrightError ⊢
    constructor <;> linarith
  have hdenominator : |total - (c + d)| ≤ (c + d) / 2 ^ 24 :=
    htotalRounds.error_of_sum_binary32 hp.representable hq.representable
  have hmean : |sum / total - (v * c + w * d) / (c + d)| ≤ 3 / 2 ^ 24 + 2 ^ (-149 : ℤ) / (c + d) :=
    calc |sum / total - (v * c + w * d) / (c + d)|
        ≤ (|sum - (v * c + w * d)| + |total - (c + d)|) / (c + d) :=
          abs_div_sub_div_le hpos hweights (by rwa [abs_of_nonneg hsum.nonneg])
      _ ≤ (2 * (c + d) / 2 ^ 24 + 2 ^ (-149 : ℤ) + (c + d) / 2 ^ 24) / (c + d) :=
          div_le_div_of_nonneg_right (add_le_add hnumerator hdenominator) hweights.le
      _ = 3 / 2 ^ 24 + 2 ^ (-149 : ℤ) / (c + d) := by
          field_simp
          ring
  have hlast := hrRounds.error_of_le_one hquotient
  calc |r - (v * c + w * d) / (c + d)|
      ≤ |r - sum / total| + |sum / total - (v * c + w * d) / (c + d)| := abs_sub_le _ _ _
    _ ≤ 2 ^ (-24 : ℤ) + (3 / 2 ^ 24 + 2 ^ (-149 : ℤ) / (c + d)) := add_le_add hlast hmean
    _ = 2 ^ (-22 : ℤ) + 2 ^ (-149 : ℤ) / (c + d) := by
        rw [← add_assoc]
        norm_num

end Single

namespace Truth

open Single

/-- The mean of two strengths, weighted by the confidences. -/
def mean (a b : Truth) : ℚ :=
  (value a.strength * value a.confidence + value b.strength * value b.confidence)
    / (value a.confidence + value b.confidence)

/-- What a truth value has to do with the two that it merges. -/
structure Merges (a b merged : Truth) : Prop where
  normalized : merged.isNormalized = true
  /-- The less confidence there is, the further the strength may be from the mean. -/
  strength : |value merged.strength - mean a b|
    ≤ 2 ^ (-22 : ℤ) + 2 ^ (-149 : ℤ) / (value a.confidence + value b.confidence)
  /-- With enough confidence, be it far below the normal numbers, the strength stays between the two. -/
  between : 2 ^ (-132 : ℤ) ≤ value a.confidence + value b.confidence →
    min (value a.strength) (value b.strength) - 1 / 100000 ≤ value merged.strength ∧
      value merged.strength ≤ max (value a.strength) (value b.strength) + 1 / 100000
  count : merged.count.toNat = min (a.count.toNat + b.count.toNat) (2 ^ 64 - 1)

variable {a b : Truth}

/-- A revision with some confidence merges the two truth values: bounds on the strength, and all of the
evidence. -/
theorem merges_revision (ha : a.isNormalized = true) (hb : b.isNormalized = true)
    (hpos : 0 < a.confidence + b.confidence) : Merges a b (a.revision b) := by
  obtain ⟨hstrengthA, hconfidenceA⟩ := isNormalized_iff.mp ha
  obtain ⟨hstrengthB, hconfidenceB⟩ := isNormalized_iff.mp hb
  obtain ⟨hv, hv₁⟩ := hasValue_value hstrengthA
  obtain ⟨hw, hw₁⟩ := hasValue_value hstrengthB
  obtain ⟨hc, hc₁⟩ := hasValue_value hconfidenceA
  obtain ⟨hd, hd₁⟩ := hasValue_value hconfidenceB
  obtain ⟨hweights, r, hr, herror⟩ := hv.weightedMean hv₁ hw hw₁ hc hc₁ hd hd₁ hpos
  have hrevision : a.revision b = ⟨(a.strength * a.confidence + b.strength * b.confidence)
      / (a.confidence + b.confidence), (a.confidence + b.confidence) / (a.confidence + b.confidence + 1),
      addCounts a.count b.count⟩ := if_pos hpos
  have hstrength : value (a.revision b).strength = r := by
    rw [hrevision]
    exact hr.value_eq
  refine ⟨isNormalized_revision ha hb, ?_, fun henough => ?_, ?_⟩
  · rw [hstrength]
    exact herror
  · obtain ⟨hlow, hhigh⟩ := mean_mem_Icc (v := value a.strength) (w := value b.strength) hc.nonneg
      hd.nonneg hweights
    -- what underflow can cost is the least number there is, divided by the confidence
    have hloss : (2 : ℚ) ^ (-149 : ℤ) / (value a.confidence + value b.confidence) ≤ 2 ^ (-17 : ℤ) := by
      rw [div_le_iff₀ hweights]
      norm_num at henough ⊢
      linarith
    have hbound : (2 : ℚ) ^ (-22 : ℤ) + 2 ^ (-17 : ℤ) ≤ 1 / 100000 := by norm_num
    rw [hstrength]
    rw [abs_le] at herror
    constructor <;> linarith
  · rw [hrevision]
    exact toNat_addCounts a.count b.count

/-- The strength of a revision of normalized truth values is their weighted mean up to rounding, so with
enough confidence it stays between the two, and counts are added up to the largest one. A store that
merges evidence into the truth of an atom keeps this value. -/
theorem revision_stays_between (ha : a.isNormalized = true) (hb : b.isNormalized = true)
    (hpos : 0 < a.confidence + b.confidence) :
    Merges a b (a.revision b) ∧
      ∀ (s : Store) (id : Id) (atom : Atom), s.get? id = some atom → atom.truth = a →
        ∃ after, s.reviseTruth id b = .ok (a.revision b, after) ∧
          after.get? id = some { atom with truth := a.revision b } := by
  refine ⟨merges_revision ha hb hpos, ?_⟩
  rintro s id atom hget rfl
  refine ⟨s.modify id (·.revision b) fun x => x, ?_, ?_⟩
  · rw [Store.reviseTruth, Store.updateTruth, hget]
  · rw [Store.get?_modify, if_pos rfl, hget]
    rfl

/-- A certain truth value with hardly any confidence and all the evidence that can be counted. -/
def hesitant : Truth := ⟨1, Float32.ofBits 0x10000, 0xffffffffffffffff⟩

/-- A doubtful one with as little confidence. -/
def doubtful : Truth := ⟨0.3, Float32.ofBits 0x10000, 5⟩

/-- Together the two have just enough confidence. -/
theorem revision_stays_between_hesitant :
    hesitant.isNormalized = true ∧ doubtful.isNormalized = true ∧
      0 < hesitant.confidence + doubtful.confidence ∧
      2 ^ (-132 : ℤ) ≤ value hesitant.confidence + value doubtful.confidence ∧
      value doubtful.strength - 1 / 100000 ≤ value (hesitant.revision doubtful).strength ∧
      value (hesitant.revision doubtful).strength ≤ value hesitant.strength + 1 / 100000 ∧
      (hesitant.revision doubtful).count = 0xffffffffffffffff ∧
      ∃ after, Store.reviseTruth (((Store.empty none).place .concept (.node none)).modify 1
          (fun _ => hesitant) fun x => x) 1 doubtful = .ok (hesitant.revision doubtful, after) ∧
        after.get? 1 = some ⟨1, .concept, .node none, hesitant.revision doubtful, Attention.none⟩ := by
  have hcertain : value hesitant.strength = 8388608 * 2 ^ (-23 : ℤ) := rfl
  have hunsure : value doubtful.strength = 10066330 * 2 ^ (-25 : ℤ) := rfl
  have hfirst : value hesitant.confidence = 65536 * 2 ^ (-149 : ℤ) := rfl
  have hsecond : value doubtful.confidence = 65536 * 2 ^ (-149 : ℤ) := rfl
  have henough : 2 ^ (-132 : ℤ) ≤ value hesitant.confidence + value doubtful.confidence := by
    rw [hfirst, hsecond]
    norm_num
  have horder : value doubtful.strength ≤ value hesitant.strength := by
    rw [hcertain, hunsure]
    norm_num
  have hhesitant : hesitant.isNormalized = true := by decide
  have hdoubtful : doubtful.isNormalized = true := by decide
  have hpos : 0 < hesitant.confidence + doubtful.confidence := by decide
  obtain ⟨hmerges, hkept⟩ := revision_stays_between hhesitant hdoubtful hpos
  obtain ⟨hlow, hhigh⟩ := hmerges.between henough
  rw [min_eq_right horder] at hlow
  rw [max_eq_left horder] at hhigh
  exact ⟨hhesitant, hdoubtful, hpos, henough, hlow, hhigh, rfl,
    hkept _ 1 ⟨1, .concept, .node none, hesitant, Attention.none⟩ rfl rfl⟩

/-- Half belief with the least confidence there is. -/
def faint : Truth := ⟨0.4, Float32.ofBits 1, 1⟩

/-- Both products are rounded to zero, so two equal truth values are merged to a strength below them. -/
theorem revision_forgets_faint :
    faint.isNormalized = true ∧ 0 < faint.confidence + faint.confidence ∧
      (faint.revision faint).strength = 0 ∧
      ¬ (min (value faint.strength) (value faint.strength) - 1 / 100000
          ≤ value (faint.revision faint).strength) := by
  have hstrength : value faint.strength = 13421773 * 2 ^ (-25 : ℤ) := rfl
  have hforgotten : value (faint.revision faint).strength = 0 := rfl
  refine ⟨by decide, by decide, by decide, ?_⟩
  rw [hstrength, hforgotten]
  norm_num

end Truth

end BeliefGraph
