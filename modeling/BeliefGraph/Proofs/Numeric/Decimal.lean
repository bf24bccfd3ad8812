import Mathlib.Algebra.Order.Ring.Nat
import Mathlib.Tactic.Ring
import BeliefGraph.Numeric.Binary
import BeliefGraph.Numeric.Integer

/-!
# Decimal text

What is written as digits reads back: whole numbers within their bounds, and decimal numbers in
positional notation. A decimal number counts as the quotient `Decimal.num / Decimal.den`. Its text may
read back as another decimal number with the same quotient, since zeros in front of the point become
digits.
-/

namespace BeliefGraph

/-! ## Runs of digits -/

/-- The decimal form of a number consists of digits. -/
theorem isDigit_of_mem_toDigits {n : Nat} {c : Char} (h : c ∈ Nat.toDigits 10 n) : c.isDigit = true :=
  Nat.isDigit_of_mem_toDigits (by omega) (by omega) h

/-- Digits are taken off the front of a text up to the first character that is none. -/
theorem takeWhile_digits {ds : List Char} (hds : ∀ c ∈ ds, c.isDigit = true) (rest : List Char)
    (hrest : ∀ c ∈ rest.head?, c.isDigit = false) :
    (ds ++ rest).takeWhile Char.isDigit = ds ∧ (ds ++ rest).dropWhile Char.isDigit = rest := by
  rw [List.takeWhile_append_of_pos hds, List.dropWhile_append_of_pos hds]
  cases rest with
  | nil => simp
  | cons c rest =>
    have hc := hrest c rfl
    simp [hc]

/-- Zeros in front of the digits of a number. -/
theorem isDigit_of_mem_zeros {count n : Nat} {c : Char}
    (h : c ∈ List.replicate count '0' ++ Nat.toDigits 10 n) : c.isDigit = true := by
  rw [List.mem_append, List.mem_replicate] at h
  rcases h with ⟨-, rfl⟩ | h
  · rfl
  · exact isDigit_of_mem_toDigits h

/-- Zeros in front do not change the number that digits stand for. -/
theorem ofDigitChars_zeros (count n : Nat) :
    Nat.ofDigitChars 10 (List.replicate count '0' ++ Nat.toDigits 10 n) 0 = n := by
  rw [Nat.ofDigitChars_append, Nat.ofDigitChars_replicate_zero, Nat.mul_zero,
    Nat.ofDigitChars_ten_toDigits]

/-! ## Whole numbers -/

namespace Integer

/-- Digits are read one after the other as long as the number stays in bounds. -/
theorem readBelow_digits {bound : Nat} (ds : List Char) (n : Nat)
    (hds : ∀ c ∈ ds, c.isDigit = true) (h : Nat.ofDigitChars 10 ds n < bound) :
    readBelow bound n ds = .ok (Nat.ofDigitChars 10 ds n) := by
  induction ds generalizing n with
  | nil => rw [readBelow, Nat.ofDigitChars_nil]
  | cons c ds ih =>
    rw [Nat.ofDigitChars_cons] at h ⊢
    have hnext : 10 * n + (c.toNat - '0'.toNat) < bound := by
      refine Nat.lt_of_le_of_lt ?_ h
      rw [Nat.ofDigitChars_eq_ofDigitChars_zero]
      exact Nat.le_add_right_of_le (Nat.le_mul_of_pos_left _ (Nat.pow_pos (by omega)))
    rw [readBelow, if_pos (hds c List.mem_cons_self)]
    simp only [hnext, if_true]
    exact ih _ (fun d hd => hds d (List.mem_cons_of_mem c hd)) h

/-- The digits of a number below a bound are read as that number. -/
theorem readBelow_toDigits {bound n : Nat} (h : n < bound) :
    readBelow bound 0 (Nat.toDigits 10 n) = .ok n := by
  rw [readBelow_digits _ _ (fun _ => isDigit_of_mem_toDigits)]
  · rw [Nat.ofDigitChars_ten_toDigits]
  · rw [Nat.ofDigitChars_ten_toDigits]
    exact h

/-- The digits of a number do not start with a sign. -/
theorem toDigits_eq_cons (n : Nat) :
    ∃ c cs, Nat.toDigits 10 n = c :: cs ∧ c ≠ '+' ∧ c ≠ '-' := by
  cases hds : Nat.toDigits 10 n with
  | nil => exact absurd hds Nat.toDigits_ne_nil
  | cons c cs =>
    have hc : c.isDigit = true := isDigit_of_mem_toDigits (by rw [hds]; exact List.mem_cons_self)
    refine ⟨c, cs, rfl, ?_, ?_⟩ <;> rintro rfl <;> simp at hc

/-- A number below a bound is read from its digits. -/
theorem readNat_toDigits {bound n : Nat} (h : n < bound) :
    readNat bound (Nat.toDigits 10 n) = .ok n := by
  have hread := readBelow_toDigits h
  obtain ⟨c, cs, hds, hplus, -⟩ := toDigits_eq_cons n
  rw [hds] at hread ⊢
  unfold readNat
  split
  · next heq => simp at heq
  · next heq => exact absurd (List.cons.inj heq).1 hplus
  · next heq => exact absurd (List.cons.inj heq).1 hplus
  · exact hread

/-- What is read stays below the bound. -/
theorem lt_of_readBelow {bound n m : Nat} {cs : List Char} (hn : n < bound)
    (h : readBelow bound n cs = .ok m) : m < bound := by
  induction cs generalizing n with
  | nil =>
    cases h
    exact hn
  | cons c cs ih =>
    rw [readBelow] at h
    split at h
    · dsimp only at h
      split at h
      · next hnext => exact ih hnext h
      · cases h
    · cases h

/-- A number that is read as a field is below the bound of the field. -/
theorem lt_of_readNat {bound n : Nat} {cs : List Char} (hbound : 0 < bound)
    (h : readNat bound cs = .ok n) : n < bound := by
  unfold readNat at h
  split at h
  · cases h
  · cases h
  · exact lt_of_readBelow hbound h
  · exact lt_of_readBelow hbound h

/-- An integer that is not negative is read from its digits. -/
theorem readInt_toDigits {half n : Nat} (h : n < half) :
    readInt half (Nat.toDigits 10 n) = .ok n := by
  have hread := readNat_toDigits h
  obtain ⟨c, cs, hds, -, hminus⟩ := toDigits_eq_cons n
  rw [hds] at hread ⊢
  unfold readInt
  split
  · next heq => exact absurd (List.cons.inj heq).1 hminus
  · next heq => exact absurd (List.cons.inj heq).1 hminus
  · rw [hread]
    rfl

/-- A negative integer is read from a minus sign and its digits. -/
theorem readInt_minus {half n : Nat} (h : n ≤ half) :
    readInt half ('-' :: Nat.toDigits 10 n) = .ok (-n) := by
  obtain ⟨c, cs, hds, -, -⟩ := toDigits_eq_cons n
  have hread := readBelow_toDigits (Nat.lt_succ_of_le h)
  unfold readInt
  split
  · next heq =>
    rw [hds] at heq
    simp at heq
  · next rest _ heq =>
    obtain rfl := (List.cons.inj heq).2
    rw [hread]
  · next hnone => exact absurd rfl (hnone _)

end Integer

/-! ## Decimal numbers -/

namespace Decimal

/-- The numerator of a decimal number. -/
def num (d : Decimal) : Nat := d.digits * 10 ^ d.exponent.toNat

/-- The denominator of a decimal number. -/
def den (d : Decimal) : Nat := 10 ^ (-d.exponent).toNat

/-- The denominator of a decimal number is not zero. -/
theorem den_pos (d : Decimal) : 0 < d.den := Nat.pow_pos (by omega)

/-- Digits around a point. -/
theorem read_point {whole fraction : List Char} (hwhole : ∀ c ∈ whole, c.isDigit = true)
    (hfraction : ∀ c ∈ fraction, c.isDigit = true) (hne : whole ≠ []) :
    read (whole ++ '.' :: fraction)
      = some ⟨Nat.ofDigitChars 10 (whole ++ fraction) 0, -(fraction.length : Int)⟩ := by
  obtain ⟨htake, hdrop⟩ := takeWhile_digits hwhole ('.' :: fraction) (by simp)
  obtain ⟨htake', hdrop'⟩ := takeWhile_digits hfraction [] (by simp)
  rw [List.append_nil] at htake' hdrop'
  simp [read, htake, hdrop, htake', hdrop', hne, readExponent]

/-- Digits without a point. -/
theorem read_whole {whole : List Char} (hwhole : ∀ c ∈ whole, c.isDigit = true) (hne : whole ≠ []) :
    read whole = some ⟨Nat.ofDigitChars 10 whole 0, 0⟩ := by
  obtain ⟨htake, hdrop⟩ := takeWhile_digits hwhole [] (by simp)
  rw [List.append_nil] at htake hdrop
  simp [read, htake, hdrop, hne, readExponent]

/-- A number that is written with some places behind the point is read with as many. -/
theorem read_withPoint {digits places : Nat} (hplaces : 0 < places) :
    read (withPoint digits places) = some ⟨digits, -(places : Int)⟩ := by
  unfold withPoint
  generalize hpadded : List.replicate (places + 1 - (Nat.toDigits 10 digits).length) '0'
    ++ Nat.toDigits 10 digits = padded
  have hdigits : ∀ c ∈ padded, c.isDigit = true := fun c hc =>
    isDigit_of_mem_zeros (hpadded.symm ▸ hc)
  -- The zeros leave a digit at least in front of the point.
  have hlength : places + 1 ≤ padded.length := by
    rw [← hpadded, List.length_append, List.length_replicate]
    omega
  have hvalue : Nat.ofDigitChars 10 padded 0 = digits := by
    rw [← hpadded, ofDigitChars_zeros]
  simp only [hpadded]
  rw [read_point (fun c hc => hdigits c (List.mem_of_mem_take hc))
    (fun c hc => hdigits c (List.mem_of_mem_drop hc)), List.take_append_drop, hvalue,
    List.length_drop]
  · congr 3
    omega
  · intro hnil
    have := congrArg List.length hnil
    rw [List.length_take, List.length_nil] at this
    omega

/-- Positional notation reads back as the same quotient. -/
theorem exists_read_positional (d : Decimal) :
    ∃ d', read d.positional = some d' ∧ d'.num = d.num ∧ d'.den = d.den := by
  obtain ⟨digits, exponent⟩ := d
  cases exponent with
  | ofNat e =>
    -- The zeros behind a whole number are read as digits, so it is read with the exponent zero.
    refine ⟨⟨digits * 10 ^ e, 0⟩, ?_, by simp [num], by simp [den]⟩
    rw [positional]
    simp only
    rw [read_whole]
    · rw [Nat.ofDigitChars_append, Nat.ofDigitChars_ten_toDigits, Nat.ofDigitChars_replicate_zero,
        Nat.mul_comm]
    · intro c hc
      rw [List.mem_append, List.mem_replicate] at hc
      rcases hc with hc | ⟨-, rfl⟩
      · exact isDigit_of_mem_toDigits hc
      · rfl
    · simp
  | negSucc e =>
    refine ⟨⟨digits, Int.negSucc e⟩, ?_, rfl, rfl⟩
    rw [positional]
    simp only
    rw [read_withPoint (Nat.succ_pos e)]
    rfl

end Decimal

/-! ## The pattern nearest to a decimal number -/

/-- Inside the decimal limits of a format the quotient is rounded. -/
theorem Format.nearestDecimal_eq (f : Format) {d : Decimal} (hhigh : d.num < 10 ^ f.ceiling * d.den)
    (hlow : d.den < d.num * 10 ^ f.floor) :
    f.nearestDecimal d.digits d.exponent = f.nearest d.num d.den := by
  obtain ⟨digits, exponent⟩ := d
  simp only [Decimal.num, Decimal.den] at *
  have hdigits : digits ≠ 0 := by
    rintro rfl
    simp at hlow
  have hlength : digits < 10 ^ (Nat.toDigits 10 digits).length :=
    (Nat.length_toDigits_le_iff (by omega) Nat.length_toDigits_pos).mp (Nat.le_refl _)
  have hlength' : 10 ^ ((Nat.toDigits 10 digits).length - 1) ≤ digits := by
    by_contra hlt
    by_cases hone : (Nat.toDigits 10 digits).length - 1 = 0
    · rw [hone] at hlt
      simp only [pow_zero] at hlt
      omega
    · have := (Nat.length_toDigits_le_iff (by omega) (Nat.pos_of_ne_zero hone)).mpr (Nat.not_le.mp hlt)
      omega
  -- From here on only the number of digits counts, which bounds the number from both sides.
  have hpos : 0 < (Nat.toDigits 10 digits).length := Nat.length_toDigits_pos
  unfold nearestDecimal
  simp only [hdigits, if_false]
  generalize (Nat.toDigits 10 digits).length = count at *
  rw [if_neg, if_neg]
  · cases exponent with
    | ofNat e => simp
    | negSucc e => simp
  · intro htop
    have hle : 10 ^ (count + f.floor) ≤ 10 ^ (-exponent).toNat :=
      Nat.pow_le_pow_right (by omega) (by omega)
    have hzero : exponent.toNat = 0 := by omega
    rw [hzero, pow_zero, Nat.mul_one] at hlow
    have hlt : digits * 10 ^ f.floor < 10 ^ count * 10 ^ f.floor :=
      Nat.mul_lt_mul_of_pos_right hlength (Nat.pow_pos (by omega))
    rw [pow_add] at hle
    omega
  · intro htop
    have hle : 10 ^ f.ceiling * 10 ^ (-exponent).toNat ≤ 10 ^ (count - 1) * 10 ^ exponent.toNat := by
      rw [← pow_add, ← pow_add]
      exact Nat.pow_le_pow_right (by omega) (by omega)
    have hle' : 10 ^ (count - 1) * 10 ^ exponent.toNat ≤ digits * 10 ^ exponent.toNat :=
      Nat.mul_le_mul_right _ hlength'
    omega

end BeliefGraph
