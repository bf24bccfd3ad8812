import BeliefGraph.Json.Value

/-!
# Reading JSON

The reader accepts one value with blanks around it. Each function of it takes the characters that are
left and gives back those that it did not use. Values nest, so the functions count down from the
length of the text, which no nesting exceeds.
-/

namespace BeliefGraph.Json

/-- The blanks of the format. -/
def isBlank (c : Char) : Bool :=
  c = ' ' || c = '\n' || c = '\t' || c = '\x0d'

def skipBlanks (cs : List Char) : List Char := cs.dropWhile isBlank

/-! ## Numbers -/

/-- One or more digits. -/
def scanDigits (cs : List Char) : Option (List Char × List Char) :=
  let digits := cs.takeWhile Char.isDigit
  if digits.isEmpty then none else some (digits, cs.dropWhile Char.isDigit)

/-- The whole part of a number: no zero stands in front of another digit. -/
def scanWhole (cs : List Char) : Option (List Char × List Char) :=
  (scanDigits cs).bind fun (digits, rest) =>
    if digits.head? = some '0' && digits.length ≠ 1 then none else some (digits, rest)

/-- A point and digits, if there is a point. -/
def scanFraction : List Char → Option (Option (List Char) × List Char)
  | '.' :: rest => (scanDigits rest).map fun (digits, rest) => (some digits, rest)
  | rest => some (none, rest)

/-- The digits of an exponent with their sign. -/
def scanSigned (cs : List Char) : Option (Int × List Char) :=
  match cs with
  | '-' :: rest => (scanDigits rest).map fun (ds, rest) => (-(Nat.ofDigitChars 10 ds 0 : Int), rest)
  | '+' :: rest => (scanDigits rest).map fun (ds, rest) => ((Nat.ofDigitChars 10 ds 0 : Int), rest)
  | _ => (scanDigits cs).map fun (ds, rest) => ((Nat.ofDigitChars 10 ds 0 : Int), rest)

/-- An exponent, if there is one. -/
def scanExponent : List Char → Option (Option Int × List Char)
  | c :: rest =>
    if c = 'e' || c = 'E' then (scanSigned rest).map fun (e, rest) => (some e, rest)
    else some (none, c :: rest)
  | [] => some (none, [])

/-- A number after its sign. -/
def scanUnsigned (negative : Bool) (cs : List Char) : Option (Number × List Char) := do
  let (whole, rest) ← scanWhole cs
  let (fraction, rest) ← scanFraction rest
  let (exponent, rest) ← scanExponent rest
  return (⟨negative, whole, fraction, exponent⟩, rest)

def scanNumber : List Char → Option (Number × List Char)
  | '-' :: rest => scanUnsigned true rest
  | rest => scanUnsigned false rest

/-! ## Values -/

mutual

/-- A value with blanks in front. -/
def scanValue : Nat → List Char → Option (Json × List Char)
  | 0, _ => none
  | fuel + 1, cs =>
    match skipBlanks cs with
    | 'n' :: 'u' :: 'l' :: 'l' :: rest => some (null, rest)
    | 't' :: 'r' :: 'u' :: 'e' :: rest => some (bool true, rest)
    | 'f' :: 'a' :: 'l' :: 's' :: 'e' :: rest => some (bool false, rest)
    | '"' :: rest => (scanString rest).map fun (points, rest) => (string points, rest)
    | '[' :: rest =>
      match skipBlanks rest with
      | ']' :: rest => some (array [], rest)
      | rest => (scanItems fuel rest).map fun (items, rest) => (array items, rest)
    | '{' :: rest =>
      match skipBlanks rest with
      | '}' :: rest => some (object [], rest)
      | rest => (scanMembers fuel rest).map fun (members, rest) => (object members, rest)
    | rest => (scanNumber rest).map fun (n, rest) => (number n, rest)

/-- One or more items up to the closing bracket. -/
def scanItems : Nat → List Char → Option (List Json × List Char)
  | 0, _ => none
  | fuel + 1, cs =>
    (scanValue fuel cs).bind fun (item, rest) =>
      match skipBlanks rest with
      | ']' :: rest => some ([item], rest)
      | ',' :: rest => (scanItems fuel rest).map fun (items, rest) => (item :: items, rest)
      | _ => none

/-- One or more members up to the closing brace. -/
def scanMembers : Nat → List Char → Option (List (List Nat × Json) × List Char)
  | 0, _ => none
  | fuel + 1, cs =>
    match skipBlanks cs with
    | '"' :: rest =>
      (scanString rest).bind fun (key, rest) =>
        match skipBlanks rest with
        | ':' :: rest =>
          (scanValue fuel rest).bind fun (value, rest) =>
            match skipBlanks rest with
            | '}' :: rest => some ([(key, value)], rest)
            | ',' :: rest =>
              (scanMembers fuel rest).map fun (members, rest) => ((key, value) :: members, rest)
            | _ => none
        | _ => none
    | _ => none

end

/-- The value that a text holds. -/
def parse? (cs : List Char) : Option Json :=
  (scanValue (2 * cs.length + 1) cs).bind fun (value, rest) =>
    if (skipBlanks rest).isEmpty then some value else none

end BeliefGraph.Json
