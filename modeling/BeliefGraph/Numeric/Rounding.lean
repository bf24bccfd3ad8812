/-!
# Rounding a quotient

One rule of rounding serves every number format of the library: a quotient of natural numbers goes
to the nearest natural number, and a half goes to the even neighbour.
-/

namespace BeliefGraph

/-- The natural number nearest to `num / den`; a half goes to the even neighbour. -/
def roundHalfEven (num den : Nat) : Nat :=
  let quotient := num / den
  let twice := 2 * (num % den)
  if twice < den then quotient
  else if den < twice then quotient + 1
  else quotient + quotient % 2

/-- A whole quotient is kept. -/
theorem roundHalfEven_mul_self (n : Nat) {den : Nat} (h : 0 < den) :
    roundHalfEven (n * den) den = n := by
  simp [roundHalfEven, h]

/-- The result is the floor of the quotient or the number after it. -/
theorem roundHalfEven_eq_or (num den : Nat) :
    roundHalfEven num den = num / den ∨ roundHalfEven num den = num / den + 1 := by
  have := Nat.mod_two_eq_zero_or_one (num / den)
  simp only [roundHalfEven]
  split
  · exact .inl rfl
  · split
    · exact .inr rfl
    · omega

end BeliefGraph
