import BeliefGraph.Proofs.Numeric.Decimal
import BeliefGraph.Proofs.Text.Split
import BeliefGraph.Snapshot.Timestamp

/-!
# Timestamps read back

What is written of a valid timestamp is read as a timestamp again. It is the same moment up to the
nanoseconds that are not written.
-/

namespace BeliefGraph.Timestamp

/-! ## Digits of a fixed width -/

/-- A padded number is written in digits alone. -/
theorem isDigit_of_mem_padded {width n : Nat} {c : Char} (h : c ∈ padded width n) :
    c.isDigit = true :=
  isDigit_of_mem_zeros h

/-- A padded number has a character. -/
theorem padded_ne_nil (width n : Nat) : padded width n ≠ [] := by
  simp [padded]

/-- Padding does not change the number that is read. -/
theorem ofDigitChars_padded (width n : Nat) : Nat.ofDigitChars 10 (padded width n) 0 = n :=
  ofDigitChars_zeros _ n

/-- A number below the power of its width is padded to this width. -/
theorem length_padded {width n : Nat} (hwidth : 0 < width) (h : n < 10 ^ width) :
    (padded width n).length = width := by
  have := (Nat.length_toDigits_le_iff (by omega) hwidth).mpr h
  rw [padded, List.length_append, List.length_replicate]
  omega

/-- A number is scanned up to its width, or up to what is no digit. -/
theorem scanNumber_append {width : Nat} {ds rest : List Char} (hne : ds ≠ [])
    (hds : ∀ c ∈ ds, c.isDigit = true)
    (hend : ds.length = width ∨ ds.length ≤ width ∧ ∀ c ∈ rest.head?, c.isDigit = false) :
    scanNumber width (ds ++ rest) = some (Nat.ofDigitChars 10 ds 0, rest) := by
  have htake : ((ds ++ rest).take width).takeWhile Char.isDigit = ds := by
    rcases hend with rfl | ⟨hle, hrest⟩
    · rw [List.take_left]
      have := (takeWhile_digits hds [] (by simp)).1
      rwa [List.append_nil] at this
    · rw [List.take_append, List.take_of_length_le hle]
      refine (takeWhile_digits hds _ fun c hc => hrest c ?_).1
      rw [List.head?_take] at hc
      split at hc
      · simp at hc
      · exact hc
  rw [scanNumber, htake]
  simp [hne]

/-- A number padded to its width is scanned off, and the rest remains. -/
theorem scanNumber_padded {width n : Nat} (hwidth : 0 < width) (h : n < 10 ^ width)
    (rest : List Char) : scanNumber width (padded width n ++ rest) = some (n, rest) := by
  rw [scanNumber_append (padded_ne_nil _ _) (fun _ => isDigit_of_mem_padded)
    (.inl (length_padded hwidth h)), ofDigitChars_padded]

/-- A padded number has no blank in it. -/
theorem unbroken_padded (width n : Nat) : Unbroken (padded width n) :=
  unbroken_of_digits fun _ => isDigit_of_mem_padded

/-! ## Years -/

/-- A year behind a sign takes all digits. -/
theorem scanNumber_signed (n : Nat) (rest : List Char) :
    scanNumber (padded 4 n ++ '-' :: rest).length (padded 4 n ++ '-' :: rest)
      = some (n, '-' :: rest) := by
  rw [scanNumber_append (padded_ne_nil _ _) (fun _ => isDigit_of_mem_padded), ofDigitChars_padded]
  refine .inr ⟨?_, by simp⟩
  rw [List.length_append]
  exact Nat.le_add_right _ _

/-- Each year reads back: four digits for the common ones, and a sign before all others. -/
theorem scanYear_yearChars (year : Int) (rest : List Char) :
    scanYear (yearChars year ++ '-' :: rest) = some (year, '-' :: rest) := by
  cases year with
  | ofNat n =>
    simp only [yearChars]
    split
    · next h =>
      have hscan := scanNumber_padded (Nat.succ_pos 3) h ('-' :: rest)
      cases hds : padded 4 n with
      | nil => exact absurd hds (padded_ne_nil 4 n)
      | cons c cs =>
        have hc : c.isDigit = true := isDigit_of_mem_padded (by rw [hds]; exact List.mem_cons_self)
        -- the first character is a digit, hence no sign
        rw [hds] at hscan
        rw [List.cons_append] at hscan ⊢
        rw [scanYear, hscan]
        · rfl
        · rintro _ heq
          obtain rfl := (List.cons.inj heq).1
          simp at hc
        · rintro _ heq
          obtain rfl := (List.cons.inj heq).1
          simp at hc
    · rw [List.cons_append, scanYear, scanNumber_signed]
      rfl
  | negSucc n =>
    simp only [yearChars]
    rw [List.cons_append, scanYear, scanNumber_signed]
    rfl

/-! ## Reading back -/

/-- Six digits of a fraction are scanned as microseconds. -/
theorem scanFraction_padded {n : Nat} (h : n < 10 ^ 6) :
    scanFraction ('.' :: (padded 6 n ++ ['Z'])) = some (n * 10 ^ 3, ['Z']) := by
  have hdigits : ∀ c ∈ padded 6 n, c.isDigit = true := fun _ => isDigit_of_mem_padded
  obtain ⟨htake, hdrop⟩ := takeWhile_digits hdigits ['Z'] (by simp)
  have hlength := length_padded (by omega) h
  rw [scanFraction, htake, hdrop, List.take_of_length_le (by omega)]
  simp [padded_ne_nil, hlength, ofDigitChars_padded]

/-- A text is read part by part. -/
theorem read_of_parts {cs₀ cs₁ cs₂ cs₃ cs₄ cs₅ cs₆ : List Char} {year offset : Int}
    {month day hour minute second nanosecond : Nat} (hyear : scanYear cs₀ = some (year, '-' :: cs₁))
    (hmonth : scanNumber 2 cs₁ = some (month, '-' :: cs₂))
    (hday : scanNumber 2 cs₂ = some (day, 'T' :: cs₃))
    (hhour : scanNumber 2 cs₃ = some (hour, ':' :: cs₄))
    (hminute : scanNumber 2 cs₄ = some (minute, ':' :: cs₅))
    (hsecond : scanNumber 2 cs₅ = some (second, cs₆))
    (hfraction : scanFraction cs₆ = some (nanosecond, ['Z'])) (hoffset : readOffset ['Z'] = some offset)
    (hinside : hour < 24 ∧ minute < 60 ∧ second ≤ 60)
    (hvalid : (ofSecond ⟨year, month, day⟩ (60 * hour + minute) second nanosecond).isValid = true) :
    read cs₀ =
      let t := (ofSecond ⟨year, month, day⟩ (60 * hour + minute) second nanosecond).toUniversal offset
      if t.isValid then some t else none := by
  have hchar : ∀ c rest, scanChar c (c :: rest) = some rest := fun c rest => if_pos rfl
  have hseparator : ∀ rest, scanSeparator ('T' :: rest) = some rest := fun rest => rfl
  unfold read
  rw [hyear, Option.bind_eq_bind, Option.bind_some]
  dsimp only
  rw [hchar, Option.bind_eq_bind, Option.bind_some, hmonth, Option.bind_eq_bind, Option.bind_some]
  dsimp only
  rw [hchar, Option.bind_some, hday, Option.bind_some]
  dsimp only
  rw [hseparator, Option.bind_some, hhour, Option.bind_some]
  dsimp only
  rw [hchar, Option.bind_some, hminute, Option.bind_some]
  dsimp only
  rw [hchar, Option.bind_some, hsecond, Option.bind_some]
  dsimp only
  rw [hfraction, Option.bind_some]
  dsimp only
  rw [hoffset, Option.bind_eq_bind, Option.bind_some, if_pos hinside, if_pos hvalid]

/-- A time without an offset stays as it is. -/
theorem toUniversal_zero {t : Timestamp} (h : t.minute < 1440) : t.toUniversal 0 = t := by
  have hnegative : ¬ (t.minute : Int) - 0 < 0 := by omega
  have hday : ¬ (1440 : Int) ≤ (t.minute : Int) - 0 := by omega
  rw [toUniversal]
  simp only [if_neg hnegative, if_neg hday]
  simp

/-- A timestamp in whole microseconds. -/
def inMicroseconds (t : Timestamp) : Timestamp :=
  ofSecond t.date t.minute (t.second + t.nanosecond / 1000000000)
    (t.nanosecond % 1000000000 / 1000 * 10 ^ 3)

/-- A valid time that is cut to microseconds is valid. -/
theorem isValid_inMicroseconds {t : Timestamp} (h : t.isValid = true) :
    t.inMicroseconds.isValid = true := by
  simp only [isValid, Bool.and_eq_true, decide_eq_true_eq] at h
  obtain ⟨⟨⟨hdate, hminute⟩, hsecond⟩, hnanosecond⟩ := h
  unfold inMicroseconds ofSecond
  split
  all_goals
    simp only [isValid, hdate, Bool.true_and, Bool.and_eq_true, decide_eq_true_eq]
    omega

/-- A valid timestamp reads back in whole microseconds. -/
theorem read_chars {t : Timestamp} (h : t.isValid = true) : read t.chars = some t.inMicroseconds := by
  have hvalid := isValid_inMicroseconds h
  have hminute : t.inMicroseconds.minute < 1440 := by
    have hvalid := hvalid
    simp only [isValid, Bool.and_eq_true, decide_eq_true_eq] at hvalid
    exact hvalid.1.1.2
  obtain ⟨⟨year, month, day⟩, minute, second, nanosecond⟩ := t
  simp only [isValid, Date.isValid, Bool.and_eq_true, decide_eq_true_eq] at h
  obtain ⟨⟨⟨⟨⟨⟨-, hmonth⟩, -⟩, hday⟩, hminutes⟩, hsecond⟩, hnanosecond⟩ := h
  have hdays : Date.daysInMonth year month ≤ 31 := by
    unfold Date.daysInMonth
    repeat' split
    all_goals decide
  have hmonth : month < 10 ^ 2 := by omega
  have hday : day < 10 ^ 2 := by omega
  have hhour : minute / 60 < 24 := by omega
  have hpart : minute % 60 < 60 := by omega
  have hsecond' : second + nanosecond / 1000000000 ≤ 60 := by omega
  -- each field fits the width it is written in; a leap second is written as the second 60
  have hmicro : nanosecond % 1000000000 / 1000 < 10 ^ 6 := by omega
  have hsplit : 60 * (minute / 60) + minute % 60 = minute := by omega
  unfold inMicroseconds at hvalid hminute ⊢
  dsimp only at hvalid hminute ⊢
  simp only [chars, List.append_assoc, List.cons_append]
  rw [← hsplit] at hvalid hminute
  rw [read_of_parts (scanYear_yearChars year _) (scanNumber_padded two_pos hmonth _)
    (scanNumber_padded two_pos hday _) (scanNumber_padded two_pos (by omega) _)
    (scanNumber_padded two_pos (by omega) _) (scanNumber_padded two_pos (by omega) _)
    (scanFraction_padded hmicro) rfl ⟨hhour, hpart, hsecond'⟩ hvalid]
  simp only
  rw [toUniversal_zero hminute, if_pos hvalid, hsplit]

/-- A written time is one word. -/
theorem isWord_chars (t : Timestamp) : IsWord t.chars := by
  have hyear : ∀ year, Unbroken (yearChars year) := by
    intro year
    unfold yearChars
    split
    · split
      · exact unbroken_padded 4 _
      · exact unbroken_cons.mpr ⟨by decide, unbroken_padded 4 _⟩
    · exact unbroken_cons.mpr ⟨by decide, unbroken_padded 4 _⟩
  have hmarks : isBlank '-' = false ∧ isBlank 'T' = false ∧ isBlank ':' = false ∧
      isBlank '.' = false ∧ isBlank 'Z' = false := by decide
  constructor
  · simp [chars]
  · simp [chars, hyear, hmarks, unbroken_padded]

end BeliefGraph.Timestamp
