import BeliefGraph.Json.Text
import BeliefGraph.Numeric.Double
import BeliefGraph.Numeric.Single

/-!
# JSON values

A value keeps its numbers as they were written and its strings as code points, so that a text can be
well formed although a part of it has no meaning. Whoever uses a part asks for the meaning:
`Number.integer?`, `Number.double?`, `Json.string?`.
-/

namespace BeliefGraph

/-- A number as it was written: `whole.fraction e exponent`, all digits in decimal. -/
structure Json.Number where
  negative : Bool
  whole : List Char
  fraction : Option (List Char)
  exponent : Option Int
  deriving DecidableEq, Repr

inductive Json
  | null
  | bool (value : Bool)
  | number (value : Json.Number)
  | string (points : List Nat)
  | array (items : List Json)
  | object (members : List (List Nat × Json))

namespace Json

/-! ## Numbers -/

namespace Number

def ofInt (n : Int) : Number := ⟨decide (n < 0), Nat.toDigits 10 n.natAbs, none, none⟩

/-- The number of unsigned words. -/
def wordBound : Nat := UInt64.size

/-- A whole number without fraction and exponent that fits into a word, signed or unsigned. Zero with
a minus sign is no whole number. -/
def integer? (n : Number) : Option Int :=
  if n.fraction.isSome || n.exponent.isSome then none
  else
    let value := Nat.ofDigitChars 10 n.whole 0
    if n.negative then
      if 0 < value ∧ value ≤ 0x8000000000000000 then some (-(value : Int)) else none
    else if value < wordBound then some value else none

/-- The leading digits of a number that fit into a word, and the power of ten that goes with them.
The first digit that does not fit ends the whole part; later digits of it only raise the power. Those
of the fraction that do not fit are left out. -/
structure Significand where
  digits : Nat
  exponent : Int

def Significand.addWhole (s : Significand) (c : Char) : Significand :=
  let next := 10 * s.digits + (c.toNat - '0'.toNat)
  if s.exponent = 0 ∧ next < wordBound then ⟨next, 0⟩ else ⟨s.digits, s.exponent + 1⟩

/-- Adds the digits of a fraction up to the first that does not fit. -/
def Significand.addFraction (s : Significand) : List Char → Significand
  | [] => s
  | c :: cs =>
    let next := 10 * s.digits + (c.toNat - '0'.toNat)
    if next < wordBound then addFraction ⟨next, s.exponent - 1⟩ cs else s

def significand (n : Number) : Significand :=
  (n.whole.foldl Significand.addWhole ⟨0, 0⟩).addFraction (n.fraction.getD [])

/-- The largest power of ten that is divided by or multiplied with at once. -/
def largestPower : Nat := 308

def tenTo (n : Nat) : Float := Double.ofNat (Nat.pow 10 n)

/-- Divides by a power of ten, in steps. -/
def divideByTenTo (x : Float) (n : Nat) : Float :=
  if n ≤ largestPower then x / tenTo n
  else if x == 0 then x
  else divideByTenTo (x / tenTo largestPower) (n - largestPower)
termination_by n
decreasing_by simp [largestPower] at *; omega

/-- Multiplies with a power of ten, unless the product is infinite. -/
def multiplyByTenTo (x : Float) (n : Nat) : Option Float :=
  if x == 0 then some x
  else if largestPower < n then none
  else
    let product := x * tenTo n
    if product.isInf then none else some product

/-- The number in double precision, computed from its leading digits with one division or
multiplication; none if it is out of range. -/
def double? (n : Number) : Option Float :=
  let s := n.significand
  let leading := Double.ofNat s.digits
  let magnitude := match s.exponent + n.exponent.getD 0 with
    | .ofNat e => multiplyByTenTo leading e
    | .negSucc e => some (divideByTenTo leading (e + 1))
  magnitude.map fun x => if n.negative then -x else x

/-- The number in single precision: a whole number is rounded once, any other by way of double
precision. -/
def single? (n : Number) : Option Float32 :=
  match n.integer? with
  | some i => some (Single.ofInt i)
  | none => n.double?.map Single.ofDouble

/-- A number as text. -/
def chars (n : Number) : List Char :=
  (if n.negative then ['-'] else []) ++ n.whole ++
    (match n.fraction with | some digits => '.' :: digits | none => []) ++
    (match n.exponent with | some e => 'e' :: e.repr.toList | none => [])

end Number

/-! ## Strings -/

def ofText (text : String) : Json := string (text.toList.map Char.toNat)

/-- The text of a string. -/
def string? : Json → Option String
  | string points => (textOfPoints points).map String.ofList
  | _ => none

/-! ## Compact text -/

/-- A string with surrogates that stand alone is written without them. -/
def quotePoints (points : List Nat) : List Char :=
  quote ((textOfPoints points).getD [])

mutual

/-- The text of a value without blanks. -/
def chars : Json → List Char
  | null => ['n', 'u', 'l', 'l']
  | bool true => ['t', 'r', 'u', 'e']
  | bool false => ['f', 'a', 'l', 's', 'e']
  | number n => n.chars
  | string points => quotePoints points
  | array items => '[' :: itemChars items ++ [']']
  | object members => '{' :: memberChars members ++ ['}']

def itemChars : List Json → List Char
  | [] => []
  | [item] => chars item
  | item :: items => chars item ++ ',' :: itemChars items

def memberChars : List (List Nat × Json) → List Char
  | [] => []
  | [(key, value)] => quotePoints key ++ ':' :: chars value
  | (key, value) :: members => quotePoints key ++ ':' :: chars value ++ ',' :: memberChars members

end

def text (j : Json) : String := String.ofList j.chars

/-! ## Use of every part -/

mutual

/-- Whether every part of a value has a meaning: no surrogate stands alone, every number is in range,
and at most `depth` arrays and objects are nested. -/
def isMeaningful : Nat → Json → Bool
  | _, null => true
  | _, bool _ => true
  | _, number n => n.integer?.isSome || n.double?.isSome
  | _, string points => (textOfPoints points).isSome
  | 0, array _ => false
  | depth + 1, array items => areMeaningful depth items
  | 0, object _ => false
  | depth + 1, object members => membersAreMeaningful depth members

def areMeaningful : Nat → List Json → Bool
  | _, [] => true
  | depth, item :: items => isMeaningful depth item && areMeaningful depth items

def membersAreMeaningful : Nat → List (List Nat × Json) → Bool
  | _, [] => true
  | depth, (key, value) :: members =>
    (textOfPoints key).isSome && isMeaningful depth value && membersAreMeaningful depth members

end

end Json

end BeliefGraph
