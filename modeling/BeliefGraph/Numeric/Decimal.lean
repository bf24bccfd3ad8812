/-!
# Decimal numbers as text

A decimal number is `digits * 10 ^ exponent`. It is written positionally, without an exponent, and
read in the usual grammar: digits with an optional point, at least one digit in all, then an optional
exponent part. Both directions work on lists of characters.
-/

namespace BeliefGraph

/-- The number `digits * 10 ^ exponent`. -/
structure Decimal where
  digits : Nat
  exponent : Int
  deriving DecidableEq, Repr

namespace Decimal

/-- `digits` with a point before its last `places` digits; zeros in front make room for one digit
before the point. -/
def withPoint (digits : Nat) (places : Nat) : List Char :=
  let written := Nat.toDigits 10 digits
  let padded := List.replicate (places + 1 - written.length) '0' ++ written
  padded.take (padded.length - places) ++ '.' :: padded.drop (padded.length - places)

/-- Positional notation. A whole number has no point. -/
def positional (d : Decimal) : List Char :=
  match d.exponent with
  | .ofNat e => Nat.toDigits 10 d.digits ++ List.replicate e '0'
  | .negSucc e => withPoint d.digits (e + 1)

/-- A run of one or more decimal digits that fills the text. -/
def readDigits (cs : List Char) : Option Nat :=
  if cs.isEmpty || !cs.all Char.isDigit then none else some (Nat.ofDigitChars 10 cs 0)

/-- A whole number with an optional sign in front. -/
def readSigned : List Char → Option Int
  | '+' :: cs => (readDigits cs).map Int.ofNat
  | '-' :: cs => (readDigits cs).map fun n => -(Int.ofNat n)
  | cs => (readDigits cs).map Int.ofNat

/-- The exponent part: nothing, or `e` or `E` and a whole number. -/
def readExponent : List Char → Option Int
  | [] => some 0
  | c :: cs => if c = 'e' || c = 'E' then readSigned cs else none

/-- A number without a sign. One side of the point may be empty, not both. -/
def read (cs : List Char) : Option Decimal :=
  let whole := cs.takeWhile Char.isDigit
  let rest := cs.dropWhile Char.isDigit
  let pointed := rest.head? == some '.'
  let fraction := if pointed then rest.tail.takeWhile Char.isDigit else []
  let tail := if pointed then rest.tail.dropWhile Char.isDigit else rest
  if whole.isEmpty && fraction.isEmpty then none
  else (readExponent tail).map fun e =>
    ⟨Nat.ofDigitChars 10 (whole ++ fraction) 0, e - fraction.length⟩

/-- The decimal digits of a number read back to it. -/
theorem readDigits_toDigits (n : Nat) : readDigits (Nat.toDigits 10 n) = some n := by
  have h : (Nat.toDigits 10 n).all Char.isDigit = true := by
    simp only [List.all_eq_true]
    exact fun c hc => Nat.isDigit_of_mem_toDigits (by decide) (by decide) hc
  simp [readDigits, h, Nat.toDigits_ne_nil, Nat.ofDigitChars_ten_toDigits]

end Decimal

end BeliefGraph
