import BeliefGraph.Text.Blank

/-!
# Cutting text

Text is cut into words at runs of blanks, into pieces at single spaces, and into lines at newlines.
All functions work on lists of characters.
-/

namespace BeliefGraph

/-- Text without the blanks at its two ends. -/
def trimBlanks (cs : List Char) : List Char :=
  ((cs.dropWhile isBlank).reverse.dropWhile isBlank).reverse

/-- Puts a character in front of the first of some pieces. -/
def extendFirst (c : Char) : List (List Char) → List (List Char)
  | [] => [[c]]
  | piece :: pieces => (c :: piece) :: pieces

/-- The runs of characters that are not blank. -/
def words : List Char → List (List Char)
  | [] => []
  | [c] => if isBlank c then [] else [[c]]
  | c :: d :: cs =>
    if isBlank c then words (d :: cs)
    else if isBlank d then [c] :: words (d :: cs)
    else extendFirst c (words (d :: cs))

/-- The text up to the first space. -/
def firstPiece (cs : List Char) : List Char := cs.takeWhile (· != ' ')

/-- The text after the first space, if there is one. -/
def afterSpace? (cs : List Char) : Option (List Char) :=
  match cs.dropWhile (· != ' ') with
  | [] => none
  | _ :: rest => some rest

/-- Pieces between single spaces, at most `count` of them: the last holds all that is left. -/
def pieces : Nat → List Char → List (List Char)
  | 0, _ => []
  | 1, cs => [cs]
  | count + 2, cs =>
    match afterSpace? cs with
    | none => [cs]
    | some rest => firstPiece cs :: pieces (count + 1) rest

/-- The lines of a text. Each ends with a newline, alone or behind a carriage return; what stands after
the last newline is a line if it is not empty. -/
def lines : List Char → List (List Char)
  | [] => []
  | '\x0d' :: '\n' :: cs => [] :: lines cs
  | '\n' :: cs => [] :: lines cs
  | c :: cs => extendFirst c (lines cs)

/-- The last place at which a mark stands in a text: what is in front of the mark, and what is behind
it. -/
def splitAtLast? (mark : List Char) : List Char → Option (List Char × List Char)
  | [] => none
  | c :: cs =>
    match splitAtLast? mark cs with
    | some (front, behind) => some (c :: front, behind)
    | none =>
      if mark.isPrefixOf (c :: cs) then some ([], (c :: cs).drop mark.length) else none

end BeliefGraph
