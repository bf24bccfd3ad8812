import BeliefGraph.Date

/-!
# Dates and times in TOML

A moment is a date, a time of day, or a date with a time, and then also with an offset from Universal
Time. The functions recognise one and give what follows it.
-/

namespace BeliefGraph.Toml

/-- A number of exactly `width` digits in a range. -/
def scanPart (width low high : Nat) (cs : List Char) : Option (Nat × List Char) :=
  let digits := (cs.take width).takeWhile Char.isDigit
  let value := Nat.ofDigitChars 10 digits 0
  if digits.length = width ∧ low ≤ value ∧ value ≤ high then some (value, cs.drop width) else none

/-- A character that must stand in front. -/
def scanMark (mark : Char) : List Char → Option (List Char)
  | c :: rest => if c = mark then some rest else none
  | [] => none

/-- A day of the calendar. -/
def scanDate (cs : List Char) : Option (List Char) := do
  let (year, cs) ← scanPart 4 0 9999 cs
  let cs ← scanMark '-' cs
  let (month, cs) ← scanPart 2 1 12 cs
  let cs ← scanMark '-' cs
  let (_, cs) ← scanPart 2 1 (Date.daysInMonth year month) cs
  return cs

/-- A fraction of a second, if there is one. -/
def skipFraction : List Char → List Char
  | '.' :: c :: rest => if c.isDigit then rest.dropWhile Char.isDigit else '.' :: c :: rest
  | rest => rest

/-- Hours and minutes. -/
def scanMinutes (cs : List Char) : Option (List Char) := do
  let (_, cs) ← scanPart 2 0 23 cs
  let cs ← scanMark ':' cs
  let (_, cs) ← scanPart 2 0 59 cs
  return cs

/-- A time of day; a minute may have a sixtieth second. -/
def scanTime (cs : List Char) : Option (List Char) := do
  let cs ← scanMinutes cs
  let cs ← scanMark ':' cs
  let (_, cs) ← scanPart 2 0 60 cs
  return skipFraction cs

/-- An offset from Universal Time, if there is one. -/
def skipOffset : List Char → List Char
  | 'Z' :: rest | 'z' :: rest => rest
  | '+' :: rest => (scanMinutes rest).getD ('+' :: rest)
  | '-' :: rest => (scanMinutes rest).getD ('-' :: rest)
  | rest => rest

/-- A time of day behind a date, if there is one. -/
def skipTime : List Char → List Char
  | c :: rest =>
    if c = 'T' || c = 't' || c = ' ' then ((scanTime rest).map skipOffset).getD (c :: rest)
    else c :: rest
  | [] => []

def scanMoment (cs : List Char) : Option (List Char) :=
  match scanDate cs with
  | some rest => some (skipTime rest)
  | none => scanTime cs

end BeliefGraph.Toml
