import BeliefGraph.Text.Hex

/-!
# Space ids

A space id is a 128-bit number. It is written as 32 hexadecimal digits in groups of 8, 4, 4, 4 and 12
with hyphens between them, in lower case. It is read in that form, also in braces or behind `urn:uuid:`,
and as 32 digits without hyphens; the case of the letters does not matter.
-/

namespace BeliefGraph

/-- The identity of a store. -/
abbrev SpaceId := BitVec 128

namespace SpaceId

def chars (id : SpaceId) : List Char :=
  let digits := Hex.digits 32 id.toNat
  digits.take 8 ++ '-' :: (digits.drop 8).take 4 ++ '-' :: (digits.drop 12).take 4 ++
    '-' :: (digits.drop 16).take 4 ++ '-' :: digits.drop 20

/-- The id with 32 digits. -/
def readPlain (cs : List Char) : Option SpaceId :=
  if cs.length = 32 then (Hex.read? cs).map (BitVec.ofNat 128) else none

/-- The places of the hyphens. -/
def hyphens : List Nat := [8, 13, 18, 23]

/-- The id in groups. -/
def readGrouped (cs : List Char) : Option SpaceId :=
  if cs.length = 36 ∧ hyphens.all fun i => cs[i]? == some '-' then
    readPlain (cs.take 8 ++ (cs.drop 9).take 4 ++ (cs.drop 14).take 4 ++ (cs.drop 19).take 4 ++
      cs.drop 24)
  else none

/-- What may stand in front of the groups, in any case. -/
def urnTag : List Char := "urn:uuid:".toList

def read (cs : List Char) : Option SpaceId :=
  if cs.length = 32 then readPlain cs
  else if cs.length = 38 ∧ cs.head? = some '\x7b' ∧ cs.getLast? = some '\x7d' then
    readGrouped cs.tail.dropLast
  else if cs.length = 45 ∧ (cs.take urnTag.length).map Char.toLower = urnTag then
    readGrouped (cs.drop urnTag.length)
  else readGrouped cs

end SpaceId

end BeliefGraph
