import BeliefGraph.Text.Hex

/-!
# Text in TOML

Blanks, line ends and comments, and the four kinds of strings: on one line or on several, with escapes
or literally. Each function takes the characters that are left and gives back those that it did not
use; those for strings with escapes count down from a number that is no less than the length of the
text.
-/

namespace BeliefGraph.Toml

/-- The blanks within a line. -/
def isBlank (c : Char) : Bool := c = ' ' || c = '\t'

/-- Characters that may stand in comments and strings: of the control characters of ASCII only a tab. -/
def isPrintable (c : Char) : Bool :=
  c = '\t' || (decide (0x20 ≤ c.toNat) && c.toNat != 0x7f)

def skipBlanks (cs : List Char) : List Char := cs.dropWhile isBlank

/-- What follows the line end that stands in front. -/
def newline? : List Char → Option (List Char)
  | '\n' :: rest => some rest
  | '\x0d' :: '\n' :: rest => some rest
  | _ => none

def skipComment : List Char → List Char
  | '#' :: rest => rest.dropWhile isPrintable
  | rest => rest

/-- What follows a line of which only blanks and a comment are left. -/
def lineEnd? (cs : List Char) : Option (List Char) :=
  match skipComment (skipBlanks cs) with
  | [] => some []
  | rest => newline? rest

/-- Leaves out blanks and line ends. -/
def skipLines : List Char → List Char
  | '\x0d' :: '\n' :: rest => skipLines rest
  | c :: rest => if isBlank c || c = '\n' then skipLines rest else c :: rest
  | [] => []

/-- Leaves out blanks, line ends and comments, where `commented` says whether a comment has begun. -/
def skipSpaceFrom : Bool → List Char → List Char
  | _, [] => []
  | _, '\x0d' :: '\n' :: rest => skipSpaceFrom false rest
  | _, '\n' :: rest => skipSpaceFrom false rest
  | true, c :: rest => if isPrintable c then skipSpaceFrom true rest else c :: rest
  | false, c :: rest =>
    if isBlank c then skipSpaceFrom false rest
    else if c = '#' then skipSpaceFrom true rest
    else c :: rest

def skipSpace (cs : List Char) : List Char := skipSpaceFrom false cs

/-! ## Characters in strings -/

/-- The character with a code point. -/
def charAt? (point : Nat) : Option Char :=
  let c := Char.ofNat point
  if c.toNat = point then some c else none

/-- The character whose code point is given in some hexadecimal digits. -/
def scanCodePoint (width : Nat) (cs : List Char) : Option (Char × List Char) :=
  let digits := cs.take width
  if digits.length = width then
    ((Hex.read? digits).bind charAt?).map fun c => (c, cs.drop width)
  else none

/-- What a letter after a backslash stands for. -/
def unescape? : Char → Option Char
  | '"' => some '"'
  | '\\' => some '\\'
  | 'b' => some '\x08'
  | 'f' => some '\x0c'
  | 'n' => some '\n'
  | 'r' => some '\x0d'
  | 't' => some '\t'
  | _ => none

/-- A character of a string, alone or as an escape. -/
def scanChar : List Char → Option (Char × List Char)
  | '\\' :: 'u' :: rest => scanCodePoint 4 rest
  | '\\' :: 'U' :: rest => scanCodePoint 8 rest
  | '\\' :: letter :: rest => (unescape? letter).map fun c => (c, rest)
  | ['\\'] => none
  | c :: rest => if isPrintable c then some (c, rest) else none
  | [] => none

/-- Puts a character in front of a text that has been read. -/
def withFirst (c : Char) (scanned : List Char × List Char) : List Char × List Char :=
  (c :: scanned.1, scanned.2)

/-! ## Strings on one line -/

/-- A string with escapes, up to its closing quote. -/
def scanBasic : Nat → List Char → Option (List Char × List Char)
  | 0, _ => none
  | _ + 1, '"' :: rest => some ([], rest)
  | fuel + 1, cs =>
    (scanChar cs).bind fun (c, rest) => (scanBasic fuel rest).map (withFirst c)

/-- A literal string, up to its closing apostrophe. -/
def scanLiteral (cs : List Char) : Option (List Char × List Char) :=
  let isLiteral c := isPrintable c && c != '\''
  match cs.dropWhile isLiteral with
  | '\'' :: rest => some (cs.takeWhile isLiteral, rest)
  | _ => none

/-! ## Strings on several lines -/

/-- Three marks close a string. Up to two more in front of them belong to it. -/
def closing? (mark : Char) (cs : List Char) : Option (List Char × List Char) :=
  let marks := (cs.takeWhile (· = mark)).length
  if marks < 3 then none
  else
    let inside := min (marks - 3) 2
    some (List.replicate inside mark, cs.drop (3 + inside))

/-- What follows a backslash at the end of a line, without the blanks and line ends in front. -/
def continued? : List Char → Option (List Char)
  | '\\' :: rest => (newline? (skipBlanks rest)).map skipLines
  | _ => none

/-- A string of several lines with escapes, up to its closing quotes. Every line end counts as one
newline. -/
def scanBasicLines : Nat → List Char → Option (List Char × List Char)
  | 0, _ => none
  | fuel + 1, cs =>
    match closing? '"' cs with
    | some (quotes, rest) => some (quotes, rest)
    | none =>
      match newline? cs with
      | some rest => (scanBasicLines fuel rest).map (withFirst '\n')
      | none =>
        match continued? cs with
        | some rest => scanBasicLines fuel rest
        | none =>
          (scanChar cs).bind fun (c, rest) => (scanBasicLines fuel rest).map (withFirst c)

/-- A literal string of several lines, up to its closing apostrophes. -/
def scanLiteralLines : Nat → List Char → Option (List Char × List Char)
  | 0, _ => none
  | fuel + 1, cs =>
    match closing? '\'' cs with
    | some (quotes, rest) => some (quotes, rest)
    | none =>
      match newline? cs with
      | some rest => (scanLiteralLines fuel rest).map (withFirst '\n')
      | none =>
        match cs with
        | c :: rest =>
          if isPrintable c then (scanLiteralLines fuel rest).map (withFirst c) else none
        | [] => none

/-- Leaves out a line end. -/
def skipNewline (cs : List Char) : List Char := (newline? cs).getD cs

/-- A string of any kind, if one stands in front. A line end right behind three opening marks does
not belong to the string. -/
def scanString : List Char → Option (List Char × List Char)
  | '"' :: '"' :: '"' :: rest => scanBasicLines (rest.length + 1) (skipNewline rest)
  | '"' :: rest => scanBasic (rest.length + 1) rest
  | '\'' :: '\'' :: '\'' :: rest => scanLiteralLines (rest.length + 1) (skipNewline rest)
  | '\'' :: rest => scanLiteral rest
  | _ => none

end BeliefGraph.Toml
