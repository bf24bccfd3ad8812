import BeliefGraph.Numeric.Decimal

/-!
# Bounded integers as text

Integers are read in decimal with an optional `+`, and with an optional `-` where the range goes
below zero. The number must lie in the range asked for; what is wrong with a text is one of four
causes.
-/

namespace BeliefGraph.Integer

inductive ReadError
  | empty
  | invalidDigit
  | tooLarge
  | tooSmall
  deriving DecidableEq, Repr

def ReadError.message : ReadError → String
  | .empty => "cannot parse integer from empty string"
  | .invalidDigit => "invalid digit found in string"
  | .tooLarge => "number too large to fit in target type"
  | .tooSmall => "number too small to fit in target type"

/-- The digits of a number below `bound`. A bad digit is reported unless the number is already out
of range in front of it. -/
def readBelow (bound : Nat) : Nat → List Char → Except ReadError Nat
  | n, [] => .ok n
  | n, c :: cs =>
    if c.isDigit then
      let next := 10 * n + (c.toNat - '0'.toNat)
      if next < bound then readBelow bound next cs else .error .tooLarge
    else .error .invalidDigit

/-- A natural number below `bound`. -/
def readNat (bound : Nat) (cs : List Char) : Except ReadError Nat :=
  match cs with
  | [] => .error .empty
  | ['+'] => .error .invalidDigit
  | '+' :: rest => readBelow bound 0 rest
  | _ => readBelow bound 0 cs

/-- An integer in the range from `-half` to `half - 1`. -/
def readInt (half : Nat) (cs : List Char) : Except ReadError Int :=
  match cs with
  | ['-'] => .error .invalidDigit
  | '-' :: rest =>
    match readBelow (half + 1) 0 rest with
    | .ok n => .ok (-(n : Int))
    | .error .tooLarge => .error .tooSmall
    | .error e => .error e
  | _ => (readNat half cs).map Int.ofNat

end BeliefGraph.Integer
