import BeliefGraph.Proofs.Numeric.Unpacked

/-!
# Packing unpacked numbers

A number is stored as its sign, its exponent with a bias, and its significand without the leading bit.
Unpacking gives back what was packed as long as the format has room for the exponent (`unpack_pack`), and
what is unpacked is placed as the format wants it (`placed_unpack`). For such numbers the comparison by
exponent and significand is that of their values (`compare_of_shows`), and whatever else is stored lies to
one side of them or is no number (`unpack_cases`).
-/

namespace BeliefGraph.Floating

open Float.Model Float.Model.UnpackedFloat

variable {F : Float.Model.Format}

/-! ## The parts of a stored number -/

/-- Half of the stored exponents belong to numbers below two. -/
theorem two_pow_exponentBits (F : Float.Model.Format) : 2 ^ F.exponentBits = 2 * F.exponentBias + 2 := by
  have hbits : F.exponentBits = F.exponentBits - 1 + 1 := (Nat.sub_add_cancel F.he).symm
  have hpos : 1 ≤ 2 ^ (F.exponentBits - 1) := Nat.one_le_two_pow
  have hdouble : 2 ^ F.exponentBits = 2 * 2 ^ (F.exponentBits - 1) := by
    conv_lhs => rw [hbits, pow_succ']
  unfold Float.Model.Format.exponentBias
  omega

/-- The stored exponent of the infinities. -/
theorem toNat_ones (F : Float.Model.Format) : (-1#F.exponentBits).toNat = 2 ^ F.exponentBits - 1 := by
  rw [BitVec.neg_one_eq_allOnes, BitVec.toNat_allOnes]

/-- The exponents for the smallest numbers and for infinity are two different ones. -/
theorem zero_ne_ones (F : Float.Model.Format) : 0#F.exponentBits ≠ -1#F.exponentBits := by
  intro h
  have hnat := congrArg BitVec.toNat h
  rw [toNat_ones, two_pow_exponentBits, BitVec.toNat_zero] at hnat
  omega

/-- The sign comes back when the parts of a number are packed and unpacked. -/
theorem unpackSign_pack (sign : Sign) (exponent : BitVec F.exponentBits)
    (mantissa : BitVec F.mantissaBitsWithoutImplicit) :
    Sign.ofBitVec (unpackSign (packComponents F sign exponent mantissa)) = sign := by
  have hsign : unpackSign (packComponents F sign exponent mantissa) = sign.toBitVec := by
    apply BitVec.eq_of_getLsbD_eq
    intro i hi
    obtain rfl := Nat.lt_one_iff.mp hi
    unfold unpackSign packComponents
    simp [BitVec.getLsbD_append, BitVec.getElem_append]
  rw [hsign]
  cases sign <;> rfl

/-- The bit in front of the stored ones. -/
theorem toNat_implicit (mantissa : BitVec F.mantissaBitsWithoutImplicit) :
    (1#1 ++ mantissa).toNat = lead F + mantissa.toNat := by
  rw [BitVec.toNat_append, ← Nat.shiftLeft_add_eq_or_of_lt mantissa.isLt, BitVec.toNat_ofNat,
    Nat.shiftLeft_eq, lead]
  norm_num

/-- Finite numbers are the same when their signs, significands and exponents are. -/
theorem finite_congr {sign sign' : Sign} {m m' : ℕ} {e e' : ℤ} (hm : 0 < m) (hm' : 0 < m')
    (hsign : sign = sign') (h : m = m') (h' : e = e') :
    UnpackedFloat.finite sign m e hm = .finite sign' m' e' hm' := by
  subst hsign h h'
  rfl

/-- An unpacked normal number: the stored bits get the bit in front of them back. -/
theorem unpack_normal {exponent : BitVec F.exponentBits} (hzero : exponent ≠ 0#_)
    (hones : exponent ≠ -1#_) {mantissa : BitVec F.mantissaBitsWithoutImplicit} {m : ℕ} {e : ℤ}
    (hpos : 0 < m) (hm : lead F + mantissa.toNat = m)
    (he : (exponent.toNat : ℤ) - (F.exponentBias + F.mantissaBitsWithoutImplicit) = e) :
    UnpackedFloat.unpack F (packComponents F .positive exponent mantissa)
      = .finite .positive m e hpos := by
  have hexponent : unpackExponent (packComponents F .positive exponent mantissa) = exponent :=
    unpackExponent_packComponents
  have hmantissa : unpackMantissa (packComponents F .positive exponent mantissa) = mantissa :=
    unpackMantissa_packComponents
  unfold UnpackedFloat.unpack
  dsimp only
  rw [if_neg (hexponent.trans_ne hones), if_neg (hexponent.trans_ne hzero)]
  refine finite_congr _ _ (unpackSign_pack _ _ _) ?_ ?_
  · rw [hmantissa]
    exact (toNat_implicit mantissa).trans hm
  · rw [hexponent]
    exact he

/-- An unpacked subnormal number. -/
theorem unpack_subnormal {mantissa : BitVec F.mantissaBitsWithoutImplicit} {m : ℕ} (hpos : 0 < m)
    (hm : mantissa.toNat = m) :
    UnpackedFloat.unpack F (packComponents F .positive 0#_ mantissa)
      = .finite .positive m F.minExponent hpos := by
  have hexponent : unpackExponent (packComponents F .positive 0#_ mantissa) = 0#_ :=
    unpackExponent_packComponents
  have hmantissa : unpackMantissa (packComponents F .positive 0#_ mantissa) = mantissa :=
    unpackMantissa_packComponents
  have hne : mantissa ≠ 0#_ := by
    rintro rfl
    rw [BitVec.toNat_zero] at hm
    exact hpos.ne hm
  unfold UnpackedFloat.unpack
  dsimp only
  rw [if_neg (hexponent.trans_ne (zero_ne_ones F)), if_pos hexponent, dif_neg (hmantissa.trans_ne hne)]
  -- No leading bit is added, and the exponent is the least one.
  refine finite_congr _ _ (unpackSign_pack _ _ _) ?_ ?_
  · rw [hmantissa]
    exact hm
  · rw [hexponent, BitVec.toNat_zero, minExponent_eq]
    push_cast
    ring

/-! ## Packing -/

/-- The exponent of the largest numbers. -/
def topExponent (F : Float.Model.Format) : ℤ := F.exponentBias - F.mantissaBitsWithoutImplicit

/-- A number whose exponent the format has room for is not changed by packing. -/
theorem unpack_pack_finite {m : ℕ} {e : ℤ} (hm : 0 < m) (h : Placed F m e) (he : e ≤ topExponent F) :
    UnpackedFloat.unpack F (UnpackedFloat.pack F (.finite .positive m e hm))
      = .finite .positive m e hm := by
  have hlt : m < 2 * lead F := by exact_mod_cast h.lt
  have hleast := h.least
  rw [minExponent_eq] at hleast
  rw [topExponent] at he
  have hroom := two_pow_exponentBits F
  obtain ⟨biased, hbiased⟩ := Int.eq_ofNat_of_zero_le
    (a := e + F.exponentBias + F.mantissaBitsWithoutImplicit) (by omega)
  delta UnpackedFloat.pack
  dsimp only
  rw [hbiased, Int.toNat_natCast, if_neg (by omega)]
  -- A significand of full length is stored without its leading bit.
  by_cases hlong : lead F ≤ m
  · have hlog : m.log2 = F.mantissaBitsWithoutImplicit := by
      refine (Nat.log2_eq_iff hm.ne').mpr ⟨hlong, ?_⟩
      rw [pow_succ']
      exact hlt
    rw [if_pos (by rw [hlog]; exact Nat.add_comm _ _)]
    have hexponent : (BitVec.ofNat F.exponentBits biased).toNat = biased := by
      rw [BitVec.toNat_ofNat, Nat.mod_eq_of_lt (by omega)]
    apply unpack_normal
    · intro hzero
      rw [hzero, BitVec.toNat_zero] at hexponent
      omega
    · intro hones
      rw [hones, toNat_ones] at hexponent
      omega
    · rw [BitVec.toNat_ofNat, ← lead, Nat.mod_eq_sub_mod hlong, Nat.mod_eq_of_lt (by omega)]
      omega
    · rw [hexponent]
      omega
  · have hlog : m.log2 < F.mantissaBitsWithoutImplicit :=
      (Nat.log2_lt hm.ne').mpr (Nat.not_le.mp hlong)
    rw [if_neg (by unfold Float.Model.Format.mantissaBits; omega)]
    have hsmallest : e = F.minExponent := h.normal.resolve_right fun hle => hlong (by exact_mod_cast hle)
    subst hsmallest
    exact unpack_subnormal hm (by rw [BitVec.toNat_ofNat, ← lead, Nat.mod_eq_of_lt (Nat.not_le.mp hlong)])

/-- Zero is unpacked with the sign with which it was packed. -/
theorem unpack_packedZero (sign : Sign) :
    UnpackedFloat.unpack F (packedZero F sign) = .zero sign := by
  have hexponent : unpackExponent (packedZero F sign) = 0#_ := unpackExponent_packComponents
  have hmantissa : unpackMantissa (packedZero F sign) = 0#_ := unpackMantissa_packComponents
  unfold UnpackedFloat.unpack
  dsimp only
  rw [if_neg (hexponent.trans_ne (zero_ne_ones F)), if_pos hexponent, dif_pos hmantissa]
  exact congrArg UnpackedFloat.zero (unpackSign_pack _ _ _)

/-- Up to the largest power of two of the format nothing is lost by packing. -/
theorem unpack_pack (hF : 0 < F.exponentBias) {x : UnpackedFloat} {v : ℚ} (h : Shows F x v)
    (hv : v ≤ lead F * 2 ^ topExponent F) :
    UnpackedFloat.unpack F (UnpackedFloat.pack F x) = x := by
  cases h with
  | zero sign => exact unpack_packedZero sign
  | @finite m e hm h =>
    refine unpack_pack_finite hm h (Int.not_lt.mp fun hlt => hv.not_gt ?_)
    -- With a larger exponent the value would be above the bound.
    have hlead : (lead F : ℚ) ≤ m :=
      h.normal_of_lt (by rw [minExponent_eq, topExponent]; omega) hlt
    calc (lead F : ℚ) * 2 ^ topExponent F < lead F * 2 ^ e :=
          mul_lt_mul_of_pos_left (zpow_lt_zpow_right₀ (by norm_num) hlt)
            (Nat.cast_pos.mpr (lead_pos F))
      _ ≤ m * 2 ^ e := mul_le_mul_of_nonneg_right hlead (two_zpow_pos e).le

/-- A result that was rounded once is packed as it is. -/
theorem exists_shows_pack (hF : 0 < F.exponentBias) {x : UnpackedFloat} {v : ℚ}
    (h : ∃ w, Shows F x w ∧ Rounds F v w) (hv : v ≤ lead F * 2 ^ topExponent F) :
    ∃ w, Shows F (UnpackedFloat.unpack F (UnpackedFloat.pack F x)) w ∧ Rounds F v w := by
  obtain ⟨w, hshows, hrounds⟩ := h
  have hlead := lead_pos F
  have htop : F.minExponent ≤ topExponent F := by
    rw [minExponent_eq, topExponent]
    omega
  have hw := hrounds.le ⟨lead F, topExponent F, by omega, htop, rfl⟩ hv
  refine ⟨w, ?_, hrounds⟩
  rw [unpack_pack hF hshows hw]
  exact hshows

/-- What is unpacked has the significand of its exponent. -/
theorem placed_unpack {bits : BitVec F.numBits} {sign : Sign} {m : ℕ} {e : ℤ} {hm : 0 < m}
    (h : UnpackedFloat.unpack F bits = .finite sign m e hm) : Placed F m e := by
  have hmantissa : (unpackMantissa bits).toNat < lead F := BitVec.isLt _
  have hlead := lead_pos F
  unfold UnpackedFloat.unpack at h
  dsimp only at h
  by_cases hones : unpackExponent bits = -1#_
  · -- An infinity, or no number.
    rw [if_pos hones] at h
    by_cases hnone : unpackMantissa bits = 0#_
    · rw [if_pos hnone] at h
      cases h
    · rw [if_neg hnone] at h
      cases h
  rw [if_neg hones] at h
  by_cases hzero : unpackExponent bits = 0#_
  · -- Zero, or a subnormal number.
    rw [if_pos hzero] at h
    by_cases hnone : unpackMantissa bits = 0#_
    · rw [dif_pos hnone] at h
      cases h
    · rw [dif_neg hnone] at h
      obtain ⟨-, rfl, rfl⟩ := UnpackedFloat.finite.inj h
      have hleast : ((unpackExponent bits).toNat : ℤ)
          - (F.exponentBias + F.mantissaBitsWithoutImplicit) + 1 = F.minExponent := by
        rw [hzero, BitVec.toNat_zero, minExponent_eq]
        push_cast
        ring
      rw [hleast]
      exact ⟨by positivity, by exact_mod_cast (by omega : (unpackMantissa bits).toNat < 2 * lead F),
        le_rfl, .inl rfl⟩
  · rw [if_neg hzero] at h
    have hpos : 0 < (unpackExponent bits).toNat := by
      rw [Nat.pos_iff_ne_zero]
      exact fun hnat => hzero (BitVec.eq_of_toNat_eq (hnat.trans BitVec.toNat_zero.symm))
    obtain ⟨-, rfl, rfl⟩ := UnpackedFloat.finite.inj h
    rw [toNat_implicit]
    refine ⟨by positivity, by exact_mod_cast (by omega : lead F + _ < 2 * lead F), ?_, .inr ?_⟩
    · rw [minExponent_eq]
      omega
    · push_cast
      linarith [Nat.cast_nonneg (α := ℚ) (unpackMantissa bits).toNat]

/-- A stored number that is positive and finite has the value of its significand and exponent. -/
theorem shows_of_unpack {bits : BitVec F.numBits} {m : ℕ} {e : ℤ} {hm : 0 < m}
    (h : UnpackedFloat.unpack F bits = .finite .positive m e hm) :
    Shows F (UnpackedFloat.unpack F bits) (m * 2 ^ e) := by
  rw [h]
  exact .finite hm (placed_unpack h)

/-! ## Comparison -/

/-- Unpacked numbers are compared by value. -/
theorem compare_of_shows {x y : UnpackedFloat} {v w : ℚ} (hx : Shows F x v) (hy : Shows F y w) :
    x.compare y = some (compare v w) := by
  cases hx with
  | zero =>
    cases hy with
    | zero => rfl
    | @finite m' e' hm' hy =>
      have hpos : (0 : ℚ) < m' * 2 ^ e' := mul_pos (Nat.cast_pos.mpr hm') (two_zpow_pos e')
      rw [compare_lt_iff_lt.mpr hpos]
      rfl
  | @finite m e hm hx =>
    cases hy with
    | zero =>
      have hpos : (0 : ℚ) < m * 2 ^ e := mul_pos (Nat.cast_pos.mpr hm) (two_zpow_pos e)
      rw [compare_gt_iff_gt.mpr hpos]
      rfl
    | @finite m' e' hm' hy =>
      -- A larger exponent means a larger number, whatever the significands are.
      show some ((compare e e').then (compare m m')) = _
      rcases lt_trichotomy e e' with he | rfl | he
      · rw [Int.compare_eq_lt.mpr he, compare_lt_iff_lt.mpr (hx.lt_of_exponent_lt hy he)]
        rfl
      · rw [Int.compare_eq_eq.mpr rfl]
        show some (compare m m') = _
        rcases lt_trichotomy m m' with hm | rfl | hm
        · rw [Nat.compare_eq_lt.mpr hm, compare_lt_iff_lt.mpr
            (mul_lt_mul_of_pos_right (Nat.cast_lt.mpr hm) (two_zpow_pos e))]
        · rw [Nat.compare_eq_eq.mpr rfl, compare_eq_iff_eq.mpr rfl]
        · rw [Nat.compare_eq_gt.mpr hm, compare_gt_iff_gt.mpr
            (mul_lt_mul_of_pos_right (Nat.cast_lt.mpr hm) (two_zpow_pos e))]
      · rw [Int.compare_eq_gt.mpr he, compare_gt_iff_gt.mpr (hy.lt_of_exponent_lt hx he)]
        rfl

/-- Unpacked numbers that have values compare by `≤` as these do. -/
theorem isLE_compare_iff {x y : UnpackedFloat} {v w : ℚ} (hx : Shows F x v) (hy : Shows F y w) :
    (x.compare y).any (·.isLE) = true ↔ v ≤ w := by
  rw [compare_of_shows hx hy, Option.any_some, Ordering.isLE_iff_ne_gt]
  exact compare_le_iff_le

/-- Unpacked numbers that have values compare by `<` as these do. -/
theorem isLT_compare_iff {x y : UnpackedFloat} {v w : ℚ} (hx : Shows F x v) (hy : Shows F y w) :
    (x.compare y == some .lt) = true ↔ v < w := by
  rw [compare_of_shows hx hy, beq_iff_eq, Option.some.injEq, compare_lt_iff_lt]

/-- What is no number cannot be compared. -/
theorem compare_of_isNaN {x : UnpackedFloat} (h : x.isNaN = true) (y : UnpackedFloat) :
    x.compare y = none ∧ y.compare x = none := by
  cases x with
  | notANumber => exact ⟨rfl, by cases y <;> rfl⟩
  | _ => exact nomatch h

/-- Less than all values that are not below zero. -/
def IsBelow (F : Float.Model.Format) (x : UnpackedFloat) : Prop :=
  ∀ ⦃y w⦄, Shows F y w → x.compare y = some .lt ∧ y.compare x = some .gt

/-- Greater than all values. -/
def IsAbove (F : Float.Model.Format) (x : UnpackedFloat) : Prop :=
  ∀ ⦃y w⦄, Shows F y w → x.compare y = some .gt ∧ y.compare x = some .lt

/-- Whatever is stored has a value or lies to one side of all values, unless it is no number. -/
theorem unpack_cases (bits : BitVec F.numBits) :
    (UnpackedFloat.unpack F bits).isNaN = true ∨ (∃ v, Shows F (UnpackedFloat.unpack F bits) v) ∨
      IsBelow F (UnpackedFloat.unpack F bits) ∨ IsAbove F (UnpackedFloat.unpack F bits) := by
  cases hunpack : UnpackedFloat.unpack F bits with
  | notANumber => exact .inl rfl
  | zero sign => exact .inr (.inl ⟨0, .zero sign⟩)
  | infinity sign =>
    cases sign with
    | negative => exact .inr (.inr (.inl fun y w hy => by cases hy <;> exact ⟨rfl, rfl⟩))
    | positive => exact .inr (.inr (.inr fun y w hy => by cases hy <;> exact ⟨rfl, rfl⟩))
  | finite sign m e hm =>
    cases sign with
    | negative => exact .inr (.inr (.inl fun y w hy => by cases hy <;> exact ⟨rfl, rfl⟩))
    | positive => exact .inr (.inl ⟨_, .finite hm (placed_unpack hunpack)⟩)

end BeliefGraph.Floating
