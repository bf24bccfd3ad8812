import Mathlib
import BeliefGraph.Proofs.Numeric.Decimal
import BeliefGraph.Proofs.Numeric.Nearest

/-!
# Single-precision numbers read back as they were written

The writer stops at a decimal number between the midpoints to the neighbours of a pattern
(`roundsTo_shortest`), and whatever lies there rounds to the pattern (`Format.nearest_eq`), so
`read_chars` needs no bound on the number of digits. Infinities and the one NaN are words.
-/

namespace BeliefGraph

/-! ## Neighbouring patterns -/

namespace Format

variable (f : Format)

/-- A greater pattern stands for a greater number. -/
theorem units_lt_succ (pattern : Nat) : f.units pattern < f.units (pattern + 1) := by
  obtain ⟨k, m, rfl, hm, hk⟩ := f.exists_binade pattern
  rw [f.units_add_succ hm hk, f.units_add hm hk]
  exact Nat.mul_lt_mul_of_pos_right (Nat.lt_succ_self m) (Nat.two_pow_pos k)

/-- Patterns are ordered as the numbers that they stand for. -/
theorem units_mono {a b : Nat} (h : a ≤ b) : f.units a ≤ f.units b := by
  induction h with
  | refl => exact Nat.le_refl _
  | step _ ih => exact Nat.le_trans ih (Nat.le_of_lt (f.units_lt_succ _))

end Format

namespace Single

/-- The pattern of infinity stands where the next power of two would. -/
theorem units_infinite : Format.single.units Format.single.infinite = 2 ^ 277 := by
  have hpattern : Format.single.infinite = 254 * Format.single.binade + Format.single.binade := by
    decide
  rw [hpattern, Format.single.units_add (by decide) (.inr (Nat.le_refl _))]
  show 2 ^ 23 * 2 ^ 254 = 2 ^ 277
  rw [← pow_add]

/-! ## The quotients that round to a pattern -/

/-- A quotient rounds to a pattern. -/
def RoundsTo (pattern num den : Nat) : Prop :=
  within (pattern % 2 == 0) ((Neighbourhood.ofPattern pattern).low * den) (num * 2 ^ 150) = true ∧
    within (pattern % 2 == 0) (num * 2 ^ 150) ((Neighbourhood.ofPattern pattern).high * den) = true

/-- A decimal number that rounds to a finite pattern has it as the nearest one. -/
theorem RoundsTo.nearestDecimal_eq {pattern : Nat} {d : Decimal} (hpos : 0 < pattern)
    (hfinite : pattern < Format.single.infinite) (h : RoundsTo pattern d.num d.den) :
    Format.single.nearestDecimal d.digits d.exponent = pattern := by
  obtain ⟨hlow, hhigh⟩ := h
  have hden := d.den_pos
  have hle := le_of_within hlow
  have hge := le_of_within hhigh
  -- The neighbourhood lies above zero and below twice the largest power of two. So the decimal number
  -- is neither too small nor too large for its digits to be taken into account.
  have hunits : 1 ≤ (Neighbourhood.ofPattern pattern).low := by
    have h₁ := Format.single.units_lt_succ (pattern - 1)
    rw [Nat.sub_add_cancel hpos] at h₁
    show 1 ≤ Format.single.units (pattern - 1) + Format.single.units pattern
    omega
  have hbound : (Neighbourhood.ofPattern pattern).high ≤ 2 ^ 278 := by
    have h₁ := Format.single.units_mono (Nat.le_of_lt hfinite)
    have h₂ : Format.single.units (pattern + 1) ≤ Format.single.units Format.single.infinite :=
      Format.single.units_mono hfinite
    rw [units_infinite] at h₁ h₂
    show Format.single.units pattern + Format.single.units (pattern + 1) ≤ 2 ^ 278
    rw [pow_succ]
    omega
  have hlow' : d.den ≤ d.num * 2 ^ 150 :=
    (Nat.le_mul_of_pos_left _ hunits).trans hle
  have hhigh' : d.num * 2 ^ 150 ≤ 2 ^ 278 * d.den := hge.trans (Nat.mul_le_mul_right _ hbound)
  have hscale : ∀ n : Nat, 2 * (n * 2 ^ Format.single.scale) = n * 2 ^ 150 := by
    intro n
    show 2 * (n * 2 ^ 149) = n * 2 ^ 150
    ring
  rw [Format.single.nearestDecimal_eq]
  · apply Format.single.nearest_eq (by decide) hden hpos (Nat.le_of_lt hfinite)
    · rw [hscale]
      exact hlow
    · rw [hscale]
      exact hhigh
  · show d.num < 10 ^ 39 * d.den
    have : (2 : Nat) ^ 278 = 2 ^ 128 * 2 ^ 150 := by rw [← pow_add]
    rw [this, Nat.mul_right_comm] at hhigh'
    have := Nat.le_of_mul_le_mul_right hhigh' (by decide)
    have : 2 ^ 128 * d.den < 10 ^ 39 * d.den := Nat.mul_lt_mul_of_pos_right (by decide) hden
    omega
  · show d.den < d.num * 10 ^ 46
    have hnum : 0 < d.num := by
      rcases Nat.eq_zero_or_pos d.num with hzero | hnum
      · rw [hzero] at hlow'
        omega
      · exact hnum
    have : d.num * 2 ^ 150 < d.num * 10 ^ 46 := Nat.mul_lt_mul_of_pos_left (by decide) hnum
    omega

/-! ## The writer stops inside the interval -/

/-- A point of the grid with a place rounds to the pattern. -/
def Fits (even : Bool) (n : Neighbourhood) (place digits : Nat) : Prop :=
  within even (n.low * 10 ^ 149) (digits * (2 ^ 150 * 10 ^ place)) = true ∧
    within even (digits * (2 ^ 150 * 10 ^ place)) (n.high * 10 ^ 149) = true

/-- A point of a grid that fits is a decimal number that rounds to the pattern. -/
theorem Fits.roundsTo {pattern place : Nat} {d : Decimal}
    (h : Fits (pattern % 2 == 0) (Neighbourhood.ofPattern pattern) place d.digits)
    (hplace : d.exponent = (place : Int) - 149) : RoundsTo pattern d.num d.den := by
  obtain ⟨hlow, hhigh⟩ := h
  have hcross : d.digits * (2 ^ 150 * 10 ^ place) * d.den = d.num * 2 ^ 150 * 10 ^ 149 := by
    -- The exponent stands in the numerator or in the denominator, and the place is counted from 149 up.
    have hpow : (10 : Nat) ^ place * 10 ^ (-d.exponent).toNat = 10 ^ d.exponent.toNat * 10 ^ 149 := by
      rw [← pow_add, ← pow_add]
      congr 1
      omega
    rw [Decimal.num, Decimal.den]
    calc d.digits * (2 ^ 150 * 10 ^ place) * 10 ^ (-d.exponent).toNat
        = d.digits * 2 ^ 150 * (10 ^ place * 10 ^ (-d.exponent).toNat) := by ring
      _ = d.digits * 2 ^ 150 * (10 ^ d.exponent.toNat * 10 ^ 149) := by rw [hpow]
      _ = d.digits * 10 ^ d.exponent.toNat * 2 ^ 150 * 10 ^ 149 := by ring
  have hscale : 0 < 10 ^ 149 := Nat.pow_pos (by omega)
  constructor
  · rw [← within_mul_right hscale, ← hcross, Nat.mul_right_comm _ d.den, within_mul_right d.den_pos]
    exact hlow
  · rw [← within_mul_right hscale, ← hcross, Nat.mul_right_comm _ d.den, within_mul_right d.den_pos]
    exact hhigh

/-- The point that is found on a grid fits. -/
theorem fits_of_gridPoint? {even : Bool} {n : Neighbourhood} {place digits : Nat}
    (hlow : n.low < n.value) (hhigh : n.value < n.high)
    (h : gridPoint? even n place = some digits) : Fits even n place digits := by
  have hunit : 0 < 10 ^ 149 := Nat.pow_pos (by omega)
  have hspacing : 0 < 2 ^ 150 * 10 ^ place :=
    Nat.mul_pos (Nat.two_pow_pos _) (Nat.pow_pos (by omega))
  have hscale : Nat.pow 2 (Format.single.scale + 1) * Nat.pow 10 place = 2 ^ 150 * 10 ^ place := rfl
  have hplace : Nat.pow 10 finestPlace = 10 ^ 149 := rfl
  unfold gridPoint? at h
  simp only [hscale, hplace] at h
  unfold Fits
  generalize 2 ^ 150 * 10 ^ place = spacing at *
  generalize 10 ^ 149 = unit at *
  -- The value lies between two neighbouring points of the grid. Of these the lower one is below the
  -- upper end in any case, and the upper one above the lower end.
  have hbelow : n.value * unit / spacing * spacing < n.high * unit :=
    Nat.lt_of_le_of_lt (Nat.div_mul_le_self _ _) (Nat.mul_lt_mul_of_pos_right hhigh hunit)
  have habove : n.low * unit < (n.value * unit / spacing + 1) * spacing := by
    have h₁ := Nat.mul_lt_mul_of_pos_right hlow hunit
    have h₂ := Nat.lt_div_mul_add (a := n.value * unit) hspacing
    rw [Nat.succ_mul]
    omega
  generalize n.value * unit / spacing = below at *
  split at h
  · next hboth =>
    rw [Bool.and_eq_true] at hboth
    cases h
    split
    · exact ⟨hboth.1, within_of_lt even hbelow⟩
    · exact ⟨within_of_lt even habove, hboth.2⟩
  · split at h
    · next hfits =>
      cases h
      exact ⟨hfits, within_of_lt even hbelow⟩
    · split at h
      · next hfits =>
        cases h
        exact ⟨within_of_lt even habove, hfits⟩
      · simp at h

/-- On the finest grid the value itself is a point. -/
theorem fits_value {even : Bool} {n : Neighbourhood} {units : Nat} (hvalue : n.value = 2 * units)
    (hlow : n.low < n.value) (hhigh : n.value < n.high) :
    Fits even n 0 (n.value * 10 ^ 149 / 2 ^ 150) := by
  have hunit : 0 < 10 ^ 149 := Nat.pow_pos (by omega)
  have hexact : n.value * 10 ^ 149 / 2 ^ 150 * (2 ^ 150 * 10 ^ 0) = n.value * 10 ^ 149 := by
    have hpow : (10 : Nat) ^ 149 = 5 ^ 149 * 2 ^ 149 := mul_pow 5 2 149
    have hsplit : n.value * 10 ^ 149 = 2 ^ 150 * (units * 5 ^ 149) := by
      rw [hvalue, hpow]
      ring
    rw [hsplit, Nat.mul_div_cancel_left _ (Nat.two_pow_pos 150)]
    ring
  unfold Fits
  rw [hexact]
  exact ⟨within_of_lt even (Nat.mul_lt_mul_of_pos_right hlow hunit),
    within_of_lt even (Nat.mul_lt_mul_of_pos_right hhigh hunit)⟩

/-- The writer finds a point that fits on one of its grids: the finest grid has the number itself. -/
theorem exists_place_shortestFrom (even : Bool) {n : Neighbourhood} {units : Nat}
    (hvalue : n.value = 2 * units) (hlow : n.low < n.value) (hhigh : n.value < n.high) (place : Nat) :
    ∃ p : Nat, (shortestFrom even n place).exponent = (p : Int) - 149 ∧
      Fits even n p (shortestFrom even n place).digits := by
  induction place with
  | zero => exact ⟨0, rfl, fits_value hvalue hlow hhigh⟩
  | succ place ih =>
    rw [shortestFrom]
    cases hpoint : gridPoint? even n (place + 1) with
    | some digits => exact ⟨place + 1, rfl, fits_of_gridPoint? hlow hhigh hpoint⟩
    | none => exact ih

/-- The decimal number that is written for a pattern rounds to it. -/
theorem roundsTo_shortest {pattern : Nat} (hpos : 0 < pattern) :
    RoundsTo pattern (shortest pattern).num (shortest pattern).den := by
  have hbelow := Format.single.units_lt_succ (pattern - 1)
  rw [Nat.sub_add_cancel hpos] at hbelow
  have habove := Format.single.units_lt_succ pattern
  have hlow : (Neighbourhood.ofPattern pattern).low < (Neighbourhood.ofPattern pattern).value := by
    show Format.single.units (pattern - 1) + Format.single.units pattern
      < 2 * Format.single.units pattern
    omega
  have hhigh : (Neighbourhood.ofPattern pattern).value < (Neighbourhood.ofPattern pattern).high := by
    show 2 * Format.single.units pattern
      < Format.single.units pattern + Format.single.units (pattern + 1)
    omega
  rw [shortest, if_neg (Nat.ne_of_gt hpos)]
  obtain ⟨place, hplace, hfits⟩ :=
    exists_place_shortestFrom (pattern % 2 == 0) rfl hlow hhigh (finestPlace + 39)
  exact hfits.roundsTo hplace

/-! ## Bit patterns -/

/-- The sign and the magnitude make the number. -/
theorem ofMagnitude_magnitude (x : Float32) : ofMagnitude (isNegative x) (magnitude x) = x := by
  have hlt : x.toBits.toNat < 2 ^ 32 := x.toBits.toNat_lt
  have hbits : (if isNegative x = true then 0x80000000 + magnitude x else magnitude x)
      = x.toBits.toNat := by
    simp only [isNegative, magnitude, decide_eq_true_eq]
    split <;> omega
  rw [ofMagnitude, hbits, UInt32.ofNat_toNat, Float32.ofBits_toBits]

/-- All bit patterns past the infinite one are the same NaN. -/
theorem eq_notANumber {x : Float32} (h : Format.single.infinite < magnitude x) :
    x = notANumber := by
  obtain ⟨⟨bits, hvalid⟩⟩ := x
  have hmagnitude : 0x7f800000 < bits.toBitVec.toNat % 0x80000000 := h
  have hlt : bits.toBitVec.toNat < 2 ^ 32 := BitVec.isLt _
  -- There is only one bit pattern for what is no number.
  have hcanonical : bits.toBitVec = Float.Model.UnpackedFloat.packedNaN .binary32 := by
    apply hvalid.eq_packedNaN
    · apply BitVec.eq_of_toNat_eq
      rw [Float.Model.UnpackedFloat.unpackExponent, BitVec.toNat_cast, BitVec.extractLsb_toNat,
        Nat.shiftRight_eq_div_pow]
      show bits.toBitVec.toNat / 2 ^ 23 % 2 ^ 8 = 255
      omega
    · intro hzero
      have := congrArg BitVec.toNat hzero
      rw [Float.Model.UnpackedFloat.unpackMantissa, BitVec.toNat_cast, BitVec.extractLsb_toNat,
        Nat.shiftRight_zero] at this
      have : bits.toBitVec.toNat % 2 ^ 23 = 0 := this
      omega
  have hbits : bits = UInt32.ofBitVec (Float.Model.UnpackedFloat.packedNaN .binary32) := by
    rw [← hcanonical]
  subst hbits
  rfl

/-! ## Reading back -/

/-- No number starts with a sign. -/
theorem not_sign_of_read {c : Char} {cs : List Char} {d : Decimal}
    (h : Decimal.read (c :: cs) = some d) : c ≠ '-' ∧ c ≠ '+' := by
  constructor <;> rintro rfl <;> simp [Decimal.read] at h

/-- The shortest digits of a finite number are read back as the number. -/
theorem readUnsigned_shortest (negative : Bool) {pattern : Nat}
    (h : pattern < Format.single.infinite) :
    readUnsigned negative (shortest pattern).positional = some (ofMagnitude negative pattern) := by
  obtain ⟨d, hread, hnum, hden⟩ := (shortest pattern).exists_read_positional
  rw [readUnsigned, hread]
  simp only [ofDecimal]
  -- Zero has no neighbour below, so it is not a case of rounding.
  rcases Nat.eq_zero_or_pos pattern with rfl | hpos
  · have hdigits : d.digits = 0 := by
      have hzero : (shortest 0).num = 0 := rfl
      rw [hzero, Decimal.num] at hnum
      exact (Nat.mul_eq_zero.mp hnum).resolve_right (Nat.ne_of_gt (Nat.pow_pos (by omega)))
    simp [Format.nearestDecimal, hdigits]
  · have hrounds := roundsTo_shortest hpos
    rw [← hnum, ← hden] at hrounds
    rw [hrounds.nearestDecimal_eq hpos h]

/-- The word for infinity is read as the pattern of infinity. -/
theorem readUnsigned_infinite (negative : Bool) :
    readUnsigned negative "inf".toList = some (ofMagnitude negative Format.single.infinite) := by
  have hread : Decimal.read "inf".toList = none := by decide
  rw [readUnsigned, hread]
  rfl

/-- A text with or without a sign in front is read by what follows the sign. -/
theorem read_signed {negative : Bool} {cs : List Char} {x : Float32} (hne : cs ≠ [])
    (hsign : cs.head? ≠ some '-' ∧ cs.head? ≠ some '+') (h : readUnsigned negative cs = some x) :
    read (if negative = true then '-' :: cs else cs) = .ok x := by
  cases negative with
  | true => simp [read, h]
  | false =>
    cases cs with
    | nil => exact absurd rfl hne
    | cons c cs =>
      obtain ⟨hminus, hplus⟩ : c ≠ '-' ∧ c ≠ '+' := by simpa using hsign
      simp [read, hminus, hplus, h]

/-- A number reads back as it was written. -/
theorem read_chars (x : Float32) : read (chars x) = .ok x := by
  unfold chars written
  split
  · next hnan =>
    rw [eq_notANumber hnan]
    rfl
  · next hnumber =>
    have hle := Nat.not_lt.mp hnumber
    split
    · next hinfinite =>
      have hread := readUnsigned_infinite (isNegative x)
      rw [← hinfinite, ofMagnitude_magnitude] at hread
      exact read_signed (by decide) (by decide) hread
    · next hne =>
      have hread := readUnsigned_shortest (isNegative x) (Nat.lt_of_le_of_ne hle hne)
      rw [ofMagnitude_magnitude] at hread
      obtain ⟨d, hpositional, -⟩ := (shortest (magnitude x)).exists_read_positional
      cases hcs : (shortest (magnitude x)).positional with
      | nil =>
        rw [hcs] at hpositional
        simp [Decimal.read] at hpositional
      | cons c cs =>
        rw [hcs] at hread hpositional
        simp only [hcs]
        refine read_signed (List.cons_ne_nil c cs) ?_ hread
        simpa using not_sign_of_read hpositional

end Single

end BeliefGraph
