import BeliefGraph.Numeric.Double
import BeliefGraph.Text.Hex
import BeliefGraph.Toml.Value

/-!
# Numbers in TOML

Single underscores may stand between digits. Integers are written in decimal, or without a sign in
hexadecimal, octal or binary, and must fit into a signed word. Fractional numbers are rounded once; a
positive one must not round to infinity.
-/

namespace BeliefGraph.Toml

/-- One or more digits, with single underscores between some of them. -/
def scanDigits (isDigit : Char → Bool) : List Char → Option (List Char × List Char)
  | [] => none
  | [c] => if isDigit c then some ([c], []) else none
  | c :: '_' :: rest =>
    if isDigit c then (scanDigits isDigit rest).map fun (digits, rest) => (c :: digits, rest)
    else none
  | c :: d :: rest =>
    if !isDigit c then none
    else if isDigit d then
      (scanDigits isDigit (d :: rest)).map fun (digits, rest) => (c :: digits, rest)
    else some ([c], d :: rest)

/-! ## Decimal numbers -/

/-- The whole part: no digit follows a zero in front. -/
def scanWhole : List Char → Option (List Char × List Char)
  | '0' :: rest => some (['0'], rest)
  | rest => scanDigits Char.isDigit rest

/-- A point and digits, if there is a point. -/
def scanFraction : List Char → Option (Option (List Char) × List Char)
  | '.' :: rest => (scanDigits Char.isDigit rest).map fun (digits, rest) => (some digits, rest)
  | rest => some (none, rest)

/-- The digits of an exponent with their sign. -/
def scanSigned : List Char → Option (Int × List Char)
  | '-' :: rest => (scanDigits Char.isDigit rest).map fun (digits, rest) =>
      (-(Nat.ofDigitChars 10 digits 0 : Int), rest)
  | '+' :: rest => (scanDigits Char.isDigit rest).map fun (digits, rest) =>
      ((Nat.ofDigitChars 10 digits 0 : Int), rest)
  | rest => (scanDigits Char.isDigit rest).map fun (digits, rest) =>
      ((Nat.ofDigitChars 10 digits 0 : Int), rest)

/-- An exponent, if there is one. -/
def scanExponent : List Char → Option (Option Int × List Char)
  | c :: rest =>
    if c = 'e' || c = 'E' then (scanSigned rest).map fun (e, rest) => (some e, rest)
    else some (none, c :: rest)
  | [] => some (none, [])

/-- An integer that fits into a signed word. -/
def integer? (negative : Bool) (magnitude : Nat) : Option Value :=
  if negative then
    if magnitude ≤ 0x8000000000000000 then some (.integer (-(magnitude : Int))) else none
  else if magnitude < 0x8000000000000000 then some (.integer magnitude) else none

/-- A fractional number, unless it is positive and past the largest one. -/
def float? (negative : Bool) (d : Decimal) : Option Value :=
  let x := Double.ofDecimal negative d
  if x.isInf && !negative then none else some (.float x)

/-- A decimal number after its sign. -/
def scanDecimal (negative : Bool) (cs : List Char) : Option (Value × List Char) := do
  let (whole, rest) ← scanWhole cs
  let (fraction, rest) ← scanFraction rest
  let (exponent, rest) ← scanExponent rest
  let value ←
    if fraction.isNone && exponent.isNone then integer? negative (Nat.ofDigitChars 10 whole 0)
    else
      let places := fraction.getD []
      float? negative ⟨Nat.ofDigitChars 10 (whole ++ places) 0, exponent.getD 0 - places.length⟩
  return (value, rest)

/-- A number after its sign; the two values that have no digits are written in lower case. -/
def scanUnsigned (negative : Bool) : List Char → Option (Value × List Char)
  | 'i' :: 'n' :: 'f' :: rest => some (.float (Double.infinity negative), rest)
  | 'n' :: 'a' :: 'n' :: rest => some (.float Double.notANumber, rest)
  | rest => scanDecimal negative rest

/-! ## Other bases -/

/-- An integer in a base that is a power of two. -/
def scanRadix (base : Nat) (cs : List Char) : Option (Value × List Char) := do
  let isDigit c := match Hex.value? c with
    | some d => decide (d < base)
    | none => false
  let (digits, rest) ← scanDigits isDigit cs
  let values ← digits.mapM Hex.value?
  let value ← integer? false (values.foldl (fun n d => base * n + d) 0)
  return (value, rest)

def scanNumber : List Char → Option (Value × List Char)
  | '0' :: 'x' :: rest => scanRadix 16 rest
  | '0' :: 'o' :: rest => scanRadix 8 rest
  | '0' :: 'b' :: rest => scanRadix 2 rest
  | '-' :: rest => scanUnsigned true rest
  | '+' :: rest => scanUnsigned false rest
  | rest => scanUnsigned false rest

end BeliefGraph.Toml
