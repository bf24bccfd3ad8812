import BeliefGraph.Text.Hex

/-!
# Strings in JSON

A string is written between quotes, with a backslash in front of quotes and backslashes, letters for
the common control characters and `\u00xx` for the others. It is read with all the escapes of the
format. An escape may name half of a surrogate pair, so reading yields code points first; they make a
text only if the halves stand in pairs.
-/

namespace BeliefGraph.Json

/-- How a character is written inside quotes. -/
def escape (c : Char) : List Char :=
  if c = '"' then ['\\', '"']
  else if c = '\\' then ['\\', '\\']
  else if c = '\x08' then ['\\', 'b']
  else if c = '\x0c' then ['\\', 'f']
  else if c = '\n' then ['\\', 'n']
  else if c = '\x0d' then ['\\', 'r']
  else if c = '\t' then ['\\', 't']
  else if c.toNat < 0x20 then
    '\\' :: 'u' :: Hex.digits 4 c.toNat
  else [c]

/-- A text as a JSON string. -/
def quote (text : List Char) : List Char :=
  '"' :: text.flatMap escape ++ ['"']

/-- What a letter after a backslash stands for. -/
def unescape? : Char → Option Char
  | '"' => some '"'
  | '\\' => some '\\'
  | '/' => some '/'
  | 'b' => some '\x08'
  | 'f' => some '\x0c'
  | 'n' => some '\n'
  | 'r' => some '\x0d'
  | 't' => some '\t'
  | _ => none

/-- Reads up to the closing quote: the code points of the string, and what follows the quote. -/
def scanString : List Char → Option (List Nat × List Char)
  | [] => none
  | '"' :: rest => some ([], rest)
  | '\\' :: 'u' :: a :: b :: c :: d :: rest =>
    (Hex.read? [a, b, c, d]).bind fun point =>
      (scanString rest).map fun (points, rest) => (point :: points, rest)
  | '\\' :: letter :: rest =>
    (unescape? letter).bind fun c =>
      (scanString rest).map fun (points, rest) => (c.toNat :: points, rest)
  | c :: rest =>
    if c.toNat < 0x20 then none
    else (scanString rest).map fun (points, rest) => (c.toNat :: points, rest)

def isHighSurrogate (point : Nat) : Bool := decide (0xd800 ≤ point) && decide (point < 0xdc00)

def isLowSurrogate (point : Nat) : Bool := decide (0xdc00 ≤ point) && decide (point < 0xe000)

/-- The code point that a surrogate pair encodes. -/
def pairedPoint (high low : Nat) : Nat :=
  0x10000 + (high - 0xd800) * 0x400 + (low - 0xdc00)

/-- The text with some code points, unless a surrogate stands alone. -/
def textOfPoints : List Nat → Option (List Char)
  | [] => some []
  | [point] => if isHighSurrogate point || isLowSurrogate point then none else some [Char.ofNat point]
  | point :: next :: rest =>
    if isHighSurrogate point && isLowSurrogate next then
      (textOfPoints rest).map (Char.ofNat (pairedPoint point next) :: ·)
    else if isHighSurrogate point || isLowSurrogate point then none
    else (textOfPoints (next :: rest)).map (Char.ofNat point :: ·)

end BeliefGraph.Json
