import Mathlib.Data.Prod.Lex
import BeliefGraph.Proofs.Numeric.Arithmetic

/-!
# The order of single-precision numbers

Comparisons of single-precision numbers compare places in a linear order (`compare_eq_rank`), and only the
one that is no number has no place in it. So among the numbers `≤` is a total preorder and `<` is its
strict part. It is not an order: the two zeros are less than or equal to each other.

Arithmetic leaves the finite numbers at two places: a sum can overflow to an infinity, and a quotient can
be no number at all. `Nonnegative` is what sums keep that start at numbers not below zero
(`Nonnegative.add`), and a finite number divided by one plus such a number is a number
(`isNaN_div_one_add`).
-/

namespace BeliefGraph.Single

open Floating Float.Model Float.Model.UnpackedFloat

/-! ## Places -/

/-- The place of an unpacked number: the infinities at the ends, then by sign, and the numbers of one sign
by exponent and then by significand. -/
def rank : UnpackedFloat → ℤ ×ₗ ℤ ×ₗ ℤ
  | .infinity .negative => toLex (-2, toLex (0, 0))
  | .finite .negative m e _ => toLex (-1, toLex (-e, -m))
  | .zero _ => toLex (0, toLex (0, 0))
  | .notANumber => toLex (0, toLex (0, 0))
  | .finite .positive m e _ => toLex (1, toLex (e, m))
  | .infinity .positive => toLex (2, toLex (0, 0))

/-- Negation turns the order of integers around. -/
theorem compare_neg (a b : ℤ) : compare (-a) (-b) = (compare a b).swap := by
  rcases lt_trichotomy a b with h | rfl | h
  · rw [Int.compare_eq_lt.mpr h, Int.compare_eq_gt.mpr (Int.neg_lt_neg h)]
    rfl
  · rw [Int.compare_eq_eq.mpr rfl, Int.compare_eq_eq.mpr rfl]
    rfl
  · rw [Int.compare_eq_gt.mpr h, Int.compare_eq_lt.mpr (Int.neg_lt_neg h)]
    rfl

/-- Significands are compared as whole numbers. -/
theorem compare_natCast (m m' : ℕ) : compare (m : ℤ) m' = compare m m' := by
  rcases lt_trichotomy m m' with h | rfl | h
  · rw [Nat.compare_eq_lt.mpr h, Int.compare_eq_lt.mpr (Int.ofNat_lt.mpr h)]
  · rw [Nat.compare_eq_eq.mpr rfl, Int.compare_eq_eq.mpr rfl]
  · rw [Nat.compare_eq_gt.mpr h, Int.compare_eq_gt.mpr (Int.ofNat_lt.mpr h)]

/-- Numbers are compared by their places. -/
theorem compare_eq_rank {x y : UnpackedFloat} (hx : x.isNaN = false) (hy : y.isNaN = false) :
    x.compare y = some (compare (rank x) (rank y)) := by
  cases x with
  | notANumber => cases hx
  | infinity s =>
    cases y with
    | notANumber => cases hy
    | infinity s' => cases s <;> cases s' <;> rfl
    | zero _ => cases s <;> rfl
    | finite s' _ _ _ => cases s <;> cases s' <;> rfl
  | zero _ =>
    cases y with
    | notANumber => cases hy
    | infinity s' => cases s' <;> rfl
    | zero _ => rfl
    | finite s' _ _ _ => cases s' <;> rfl
  | finite s m e hm =>
    cases y with
    | notANumber => cases hy
    | infinity s' => cases s <;> cases s' <;> rfl
    | zero _ => cases s <;> rfl
    | finite s' m' e' hm' =>
      -- Numbers of one sign are the case in which the parts decide.
      cases s <;> cases s'
      · show some ((compare e e').then (compare m m')).swap
          = some ((compare (-e) (-e')).then (compare (-(m : ℤ)) (-(m' : ℤ))))
        rw [compare_neg, compare_neg, compare_natCast, Ordering.swap_then]
      · rfl
      · rfl
      · show some ((compare e e').then (compare m m'))
          = some ((compare e e').then (compare (m : ℤ) (m' : ℤ)))
        rw [compare_natCast]

/-! ## Comparisons -/

/-- The place of a single-precision number. -/
def place (x : Float32) : ℤ ×ₗ ℤ ×ₗ ℤ := rank x.toModel.unpack

variable {x y z : Float32}

/-- Of two numbers one is at most the other when its place is. -/
theorem le_iff_place (hx : x.isNaN = false) (hy : y.isNaN = false) : x ≤ y ↔ place x ≤ place y := by
  rw [le_iff_compare, compare_eq_rank hx hy, Option.any_some, Ordering.isLE_iff_ne_gt]
  exact compare_le_iff_le

/-- Of two numbers one is less than the other when its place is. -/
theorem lt_iff_place (hx : x.isNaN = false) (hy : y.isNaN = false) : x < y ↔ place x < place y := by
  rw [lt_iff_compare, compare_eq_rank hx hy, beq_iff_eq, Option.some.injEq]
  exact compare_lt_iff_lt

/-- Any two numbers can be compared. -/
theorem not_le_iff (hx : x.isNaN = false) (hy : y.isNaN = false) : ¬ x ≤ y ↔ y < x := by
  rw [le_iff_place hx hy, lt_iff_place hy hx, not_le]

/-- A number is at most itself, unless it is no number. -/
theorem le_self (hx : x.isNaN = false) : x ≤ x :=
  (le_iff_place hx hx).mpr le_rfl

/-- A number that is less than another is at most that. -/
protected theorem le_of_lt (hx : x.isNaN = false) (hy : y.isNaN = false) (h : x < y) : x ≤ y :=
  (le_iff_place hx hy).mpr ((lt_iff_place hx hy).mp h).le

/-- The order and the strict order of numbers compose. -/
protected theorem lt_of_le_of_lt (hx : x.isNaN = false) (hy : y.isNaN = false) (hz : z.isNaN = false)
    (h : x ≤ y) (h' : y < z) : x < z := by
  rw [lt_iff_place hx hz]
  exact ((le_iff_place hx hy).mp h).trans_lt ((lt_iff_place hy hz).mp h')

/-! ## Numbers that are not below zero -/

/-- Only the largest exponent is that of something else than finite numbers. -/
theorem isNaN_unpack_packComponents {sign : Sign} {exponent : BitVec 8} {mantissa : BitVec 23}
    (h : exponent ≠ -1#8) :
    (UnpackedFloat.unpack .binary32 (packComponents .binary32 sign exponent mantissa)).isNaN
      = false := by
  have hexponent : unpackExponent (packComponents .binary32 sign exponent mantissa) = exponent :=
    unpackExponent_packComponents
  unfold UnpackedFloat.unpack
  dsimp only
  rw [if_neg (hexponent.trans_ne h)]
  by_cases hzero : exponent = 0#8
  · rw [if_pos (hexponent.trans hzero)]
    by_cases hnone : @unpackMantissa .binary32 (packComponents .binary32 sign exponent mantissa) = 0#23
    · rw [dif_pos hnone]
      rfl
    · rw [dif_neg hnone]
      rfl
  · rw [if_neg (hexponent.trans_ne hzero)]
    rfl

/-- A number that is packed is a number. -/
theorem isNaN_unpack_pack {u : UnpackedFloat} (h : u.isNaN = false) :
    (UnpackedFloat.unpack .binary32 (UnpackedFloat.pack .binary32 u)).isNaN = false := by
  cases u with
  | notANumber => cases h
  | infinity sign => cases sign <;> rfl
  | zero sign => cases sign <;> rfl
  | finite sign m e hm =>
    delta UnpackedFloat.pack
    dsimp only
    split
    · cases sign <;> rfl
    · -- The exponent is too small to be the one of infinities, and packing leaves it so.
      next hroom =>
      have hroom : (e + (Float.Model.Format.binary32.exponentBias : ℕ) + (23 : ℕ)).toNat + 1 < 256 :=
        Nat.not_le.mp hroom
      split
      · refine isNaN_unpack_packComponents fun hones => ?_
        have hnat := congrArg BitVec.toNat hones
        rw [BitVec.toNat_ofNat] at hnat
        have : (-1#8 : BitVec 8).toNat = 255 := rfl
        omega
      · exact isNaN_unpack_packComponents (by decide)

/-- With an exponent that the format has no room for, a number is packed as an infinity. -/
theorem unpack_pack_overflow {m : ℕ} {e : ℤ} (hm : 0 < m) (he : 104 < e) :
    UnpackedFloat.unpack .binary32 (UnpackedFloat.pack .binary32 (.finite .positive m e hm))
      = .infinity .positive := by
  delta UnpackedFloat.pack
  dsimp only
  have hbiased : (e + (Float.Model.Format.binary32.exponentBias : ℕ) + (23 : ℕ)).toNat
      = (e + 150).toNat := by
    show (e + 127 + 23).toNat = _
    omega
  rw [hbiased, if_pos (show 256 ≤ (e + 150).toNat + 1 by omega)]
  rfl

/-- A number that has a value and is not below zero, or the infinity above all of them. -/
def Nonnegative (x : Float32) : Prop :=
  (∃ v, HasValue x v) ∨ x.toModel.unpack = .infinity .positive

/-- What is finite and not less than zero. Minus zero is, too. -/
theorem nonnegative_of_isFinite (hfinite : x.isFinite = true) (h : ¬ x < 0) : Nonnegative x := by
  have hfinite : x.toModel.unpack.isFinite = true := hfinite
  cases hunpack : x.toModel.unpack with
  | notANumber =>
    rw [hunpack] at hfinite
    cases hfinite
  | infinity sign =>
    rw [hunpack] at hfinite
    cases hfinite
  | zero sign =>
    refine .inl ⟨0, ?_⟩
    unfold HasValue
    rw [hunpack]
    exact .zero sign
  | finite sign m e hm =>
    cases sign with
    | positive => exact .inl ⟨_, hasValue_of_unpack hm hunpack⟩
    | negative =>
      have hnan : x.isNaN = false := by
        show x.toModel.unpack.isNaN = false
        rw [hunpack]
        rfl
      -- A negative number is placed below zero.
      refine absurd ((lt_iff_place hnan rfl).mpr ?_) h
      rw [place, hunpack]
      exact Prod.Lex.toLex_lt_toLex.mpr (.inl (show (-1 : ℤ) < 0 by decide))

/-- A finite number is packed as itself or as an infinity. -/
theorem hasValue_pack_or_infinite {u : UnpackedFloat} {v : ℚ} (h : Shows .binary32 u v) :
    HasValue (.ofModel (.pack u)) v ∨
      (Float32.ofModel (.pack u)).toModel.unpack = .infinity .positive := by
  cases h with
  | zero sign => exact .inl (hasValue_pack (.zero sign) (by norm_num))
  | @finite m e hm h =>
    rcases le_or_gt e 104 with he | he
    · left
      show Shows .binary32 (UnpackedFloat.unpack .binary32 (UnpackedFloat.pack .binary32 _)) _
      rw [unpack_pack_finite hm h he]
      exact .finite hm h
    · exact .inr (unpack_pack_overflow hm he)

/-- A sum that overflows is infinite, as the format has room for infinity. -/
theorem unpack_add_of_infinite
    (h : UnpackedFloat.add .binary32 x.toModel.unpack y.toModel.unpack = .infinity .positive) :
    (x + y).toModel.unpack = .infinity .positive := by
  show UnpackedFloat.unpack .binary32 (UnpackedFloat.pack .binary32
    (UnpackedFloat.add .binary32 x.toModel.unpack y.toModel.unpack)) = _
  rw [h]
  rfl

/-- A sum has the value nearest to the exact one, unless it overflows or a summand is infinite. -/
theorem Nonnegative.add_cases (hx : Nonnegative x) (hy : Nonnegative y) :
    (∃ v w r, HasValue x v ∧ HasValue y w ∧ HasValue (x + y) r ∧ Rounds .binary32 (v + w) r) ∨
      (x + y).toModel.unpack = .infinity .positive := by
  rcases hx with ⟨v, hv⟩ | hx
  · rcases hy with ⟨w, hw⟩ | hy
    · -- Two finite numbers add up to a finite one, or to one that is too large to be packed.
      obtain ⟨r, hshows, hrounds⟩ := Shows.add hv hw
      rcases hasValue_pack_or_infinite hshows with hvalue | hinfinite
      · exact .inl ⟨v, w, r, hv, hw, hvalue, hrounds⟩
      · exact .inr hinfinite
    · refine .inr (unpack_add_of_infinite ?_)
      unfold HasValue at hv
      rw [hy]
      -- Infinity plus a number that is not negative is infinity.
      generalize x.toModel.unpack = u at hv
      cases hv <;> rfl
  · refine .inr (unpack_add_of_infinite ?_)
    rw [hx]
    rcases hy with ⟨w, hw⟩ | hy
    · unfold HasValue at hw
      generalize y.toModel.unpack = u at hw
      cases hw <;> rfl
    · rw [hy]
      rfl

/-- Sums of numbers that are not negative are not negative, and they are numbers. -/
theorem Nonnegative.add (hx : Nonnegative x) (hy : Nonnegative y) : Nonnegative (x + y) := by
  rcases hx.add_cases hy with ⟨v, w, r, -, -, hr, -⟩ | hinfinite
  · exact .inl ⟨r, hr⟩
  · exact .inr hinfinite

/-- The literal one is not negative. -/
theorem nonnegative_one : Nonnegative 1 := .inl ⟨1, hasValue_one⟩

/-- What is rounded is a number. -/
theorem isNaN_roundWithAccuracy (sign : Sign) (m : ℕ) (e : ℤ) (accuracy : Accuracy) :
    (roundWithAccuracy .binary32 sign m e accuracy).isNaN = false := by
  unfold roundWithAccuracy
  generalize shiftToTargetExponent .binary32 m e accuracy = first
  dsimp only
  generalize shiftToTargetExponent .binary32 first.1.roundedMantissa first.2 .exact = second
  by_cases hzero : second.1.mantissa = 0
  · rw [dif_pos hzero]
    rfl
  · rw [dif_neg hzero]
    rfl

/-- A finite number divided by one plus a number that is not below zero is a number. -/
theorem isNaN_div_one_add (hx : x.isFinite = true) (hy : Nonnegative y) :
    (x / (1 + y)).isNaN = false := by
  have hx : x.toModel.unpack.isFinite = true := hx
  -- The divisor is at least one.
  have hdivisor : (∃ m e hm, (1 + y).toModel.unpack = .finite .positive m e hm) ∨
      (1 + y).toModel.unpack = .infinity .positive := by
    refine (nonnegative_one.add_cases hy).imp_left ?_
    rintro ⟨v, w, r, hv, hw, hr, hrounds⟩
    have hone : (1 : ℚ) ≤ v := (hasValue_one.le_iff hv).mp ((hv.le_iff hv).mpr le_rfl)
    have hpos : 1 ≤ r := hrounds.ge representable_one (by linarith [hw.nonneg])
    unfold HasValue at hr
    generalize (1 + y).toModel.unpack = u at hr
    cases hr with
    | zero => norm_num at hpos
    | finite hm _ => exact ⟨_, _, hm, rfl⟩
  refine isNaN_unpack_pack (u := UnpackedFloat.div .binary32 x.toModel.unpack (1 + y).toModel.unpack) ?_
  generalize x.toModel.unpack = u at hx
  generalize (1 + y).toModel.unpack = d at hdivisor
  rcases hdivisor with ⟨m, e, hm, rfl⟩ | rfl
  · cases u with
    | notANumber => cases hx
    | infinity _ => cases hx
    | zero _ => rfl
    | finite sign m' e' hm' =>
      unfold UnpackedFloat.div
      exact isNaN_roundWithAccuracy _ _ _ _
  · cases u with
    | notANumber => cases hx
    | infinity _ => cases hx
    | zero _ => rfl
    | finite sign m' e' hm' => rfl

end BeliefGraph.Single
