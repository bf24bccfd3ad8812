/-!
# Hexadecimal digits

Numbers are written in lower case and read in either case.
-/

namespace BeliefGraph.Hex

/-- The digits of a number, from the high one, as many as asked for. -/
def digits : Nat → Nat → List Char
  | 0, _ => []
  | count + 1, n => digits count (n / 16) ++ [Nat.digitChar (n % 16)]

/-- The value of a digit. -/
def value? (c : Char) : Option Nat :=
  if c.isDigit then some (c.toNat - '0'.toNat)
  else if 'a' ≤ c ∧ c ≤ 'f' then some (c.toNat - 'a'.toNat + 10)
  else if 'A' ≤ c ∧ c ≤ 'F' then some (c.toNat - 'A'.toNat + 10)
  else none

/-- Adds a digit at the low end of a number. -/
def push? (n : Nat) (c : Char) : Option Nat :=
  (value? c).map fun d => 16 * n + d

/-- The number with some digits. -/
def read? (cs : List Char) : Option Nat :=
  cs.foldlM push? 0

/-- A number is written with as many hexadecimal digits as are asked for. -/
theorem length_digits (count n : Nat) : (digits count n).length = count := by
  induction count generalizing n with
  | zero => rfl
  | succ count ih => simp [digits, ih]

/-- The digit for a value below sixteen has that value. -/
theorem value?_digitChar {d : Nat} (h : d < 16) : value? (Nat.digitChar d) = some d := by
  have : ∀ d : Fin 16, value? (Nat.digitChar d.val) = some d.val := by decide
  exact this ⟨d, h⟩

/-- Digits read back to the number, as far as there are digits for it. -/
theorem read?_digits (count n : Nat) : read? (digits count n) = some (n % Nat.pow 16 count) := by
  induction count generalizing n with
  | zero => simp [digits, read?, Nat.mod_one]
  | succ count ih =>
    have h : n % 16 < 16 := Nat.mod_lt _ (by decide)
    have ih := ih (n / 16)
    simp only [read?] at ih
    simp only [read?, digits, List.foldlM_append, ih, List.foldlM_cons, List.foldlM_nil]
    simp [push?, value?_digitChar h, Nat.pow_succ, Nat.mul_comm (16 ^ count), Nat.mod_mul]
    omega

end BeliefGraph.Hex
