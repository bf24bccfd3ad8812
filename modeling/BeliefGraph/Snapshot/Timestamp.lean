import BeliefGraph.Date
import BeliefGraph.Numeric.Decimal

/-!
# Timestamps

A timestamp is a moment in Universal Time, kept as a date of the calendar and a time of day. It is
written with microseconds and a `Z`. It is read with any offset from Universal Time, with one or two
digits in each part, and with a fraction of any length, of which nine digits count. A sixtieth second
is kept as a second that has not ended.
-/

namespace BeliefGraph

structure Timestamp where
  date : Date
  /-- Minutes since midnight. -/
  minute : Nat
  second : Nat
  /-- Nanoseconds in the second; a second that goes on for a sixtieth has up to two billion. -/
  nanosecond : Nat
  deriving DecidableEq, Repr

namespace Timestamp

def isValid (t : Timestamp) : Bool :=
  t.date.isValid && decide (t.minute < 1440) && decide (t.second < 60) &&
    decide (t.nanosecond < 2000000000)

/-- The first moment of 1970. -/
def epoch : Timestamp := ⟨⟨1970, 1, 1⟩, 0, 0, 0⟩

/-- Seconds from the first moment of 1970. -/
def unixSeconds (t : Timestamp) : Int :=
  86400 * t.date.unixDays + 60 * t.minute + t.second

/-! ## Writing -/

/-- A number with zeros in front up to a width. -/
def padded (width n : Nat) : List Char :=
  let digits := Nat.toDigits 10 n
  List.replicate (width - digits.length) '0' ++ digits

/-- A year of four digits; one outside that range has a sign. -/
def yearChars (year : Int) : List Char :=
  match year with
  | .ofNat n => if n < 10000 then padded 4 n else '+' :: padded 4 n
  | .negSucc n => '-' :: padded 4 (n + 1)

def chars (t : Timestamp) : List Char :=
  yearChars t.date.year ++ '-' :: padded 2 t.date.month ++ '-' :: padded 2 t.date.day ++
    'T' :: padded 2 (t.minute / 60) ++ ':' :: padded 2 (t.minute % 60) ++
    ':' :: padded 2 (t.second + t.nanosecond / 1000000000) ++
    '.' :: padded 6 (t.nanosecond % 1000000000 / 1000) ++ ['Z']

/-! ## Reading -/

/-- A number of at most `width` digits, and what follows it. -/
def scanNumber (width : Nat) (cs : List Char) : Option (Nat × List Char) :=
  let digits := (cs.take width).takeWhile Char.isDigit
  if digits.isEmpty then none else some (Nat.ofDigitChars 10 digits 0, cs.drop digits.length)

/-- A year: four digits, or a sign and any number of digits. -/
def scanYear : List Char → Option (Int × List Char)
  | '-' :: rest => (scanNumber rest.length rest).map fun (n, rest) => (-(n : Int), rest)
  | '+' :: rest => (scanNumber rest.length rest).map fun (n, rest) => ((n : Int), rest)
  | rest => (scanNumber 4 rest).map fun (n, rest) => ((n : Int), rest)

/-- A character that must stand there. -/
def scanChar (c : Char) : List Char → Option (List Char)
  | d :: rest => if c = d then some rest else none
  | [] => none

/-- The letter between the date and the time of day. -/
def scanSeparator : List Char → Option (List Char)
  | c :: rest => if c = 'T' || c = 't' then some rest else none
  | [] => none

/-- A fraction of a second in nanoseconds, if there is one. Digits after the ninth do not count. -/
def scanFraction : List Char → Option (Nat × List Char)
  | '.' :: rest =>
    let digits := rest.takeWhile Char.isDigit
    if digits.isEmpty then none
    else
      let counted := digits.take 9
      some (Nat.ofDigitChars 10 counted 0 * Nat.pow 10 (9 - counted.length),
        rest.dropWhile Char.isDigit)
  | rest => some (0, rest)

/-- Minutes by which local time is ahead of Universal Time: two digits for the hours and two for the
minutes, with any number of colons between them. -/
def readAhead (cs : List Char) : Option Nat :=
  match cs with
  | a :: b :: rest =>
    match rest.dropWhile (· == ':') with
    | [c, d] =>
      if [a, b, c, d].all Char.isDigit then
        let hours := Nat.ofDigitChars 10 [a, b] 0
        let minutes := Nat.ofDigitChars 10 [c, d] 0
        if minutes < 60 && hours < 24 then some (60 * hours + minutes) else none
      else none
    | _ => none
  | _ => none

/-- The offset of local time from Universal Time in minutes. -/
def readOffset : List Char → Option Int
  | ['Z'] | ['z'] => some 0
  | '+' :: rest => (readAhead rest).map Int.ofNat
  | '-' :: rest => (readAhead rest).map fun n => -(n : Int)
  | '\u2212' :: rest => (readAhead rest).map fun n => -(n : Int)
  | cs => if (String.ofList cs).toLower = "utc" then some 0 else none

/-- A local timestamp in Universal Time. -/
def toUniversal (t : Timestamp) (offset : Int) : Timestamp :=
  let minute := t.minute - offset
  if minute < 0 then { t with date := t.date.previous, minute := (minute + 1440).toNat }
  else if 1440 ≤ minute then { t with date := t.date.next, minute := (minute - 1440).toNat }
  else { t with minute := minute.toNat }

/-- A second from 0 to 60, with nanoseconds. -/
def ofSecond (date : Date) (minute second nanosecond : Nat) : Timestamp :=
  if second = 60 then ⟨date, minute, 59, nanosecond + 1000000000⟩
  else ⟨date, minute, second, nanosecond⟩

def read (cs : List Char) : Option Timestamp := do
  let (year, cs) ← scanYear cs
  let cs ← scanChar '-' cs
  let (month, cs) ← scanNumber 2 cs
  let cs ← scanChar '-' cs
  let (day, cs) ← scanNumber 2 cs
  let cs ← scanSeparator cs
  let (hour, cs) ← scanNumber 2 cs
  let cs ← scanChar ':' cs
  let (minute, cs) ← scanNumber 2 cs
  let cs ← scanChar ':' cs
  let (second, cs) ← scanNumber 2 cs
  let (nanosecond, cs) ← scanFraction cs
  let offset ← readOffset cs
  if hour < 24 ∧ minute < 60 ∧ second ≤ 60 then
    let t := ofSecond ⟨year, month, day⟩ (60 * hour + minute) second nanosecond
    if t.isValid then
      let t := t.toUniversal offset
      if t.isValid then some t else none
    else none
  else none

end Timestamp

end BeliefGraph
