import BeliefGraph.Store.Query

/-!
# Ranking and decay of importance

The atoms of a store are ranked by short-term importance, the highest first and equals in the order of
their ids. Decay takes a part of every atom's short-term importance away, rounding toward zero.
-/

namespace BeliefGraph.Store

/-- Whether an atom may stand in front of another: it is at least as important. -/
def ranksBefore (a b : Atom) : Bool :=
  decide (b.sti.toInt ≤ a.sti.toInt)

/-- The live atoms by importance. -/
def ranked (s : Store) : List Atom :=
  s.atoms.mergeSort ranksBefore

/-- The ids of the most important atoms, as many as there are places. -/
def mostImportant (s : Store) (places : Nat) : List Id :=
  (s.ranked.take places).map Atom.id

/-- The sum of some importance over all live atoms. -/
def total (s : Store) (importance : Attention → Int32) : Int :=
  s.atoms.foldr (fun a sum => (importance a.attention).toInt + sum) 0

/-- The part that a decay rate leaves. Rates outside the unit interval count as its nearer end, and
a rate that is no number takes nothing away. -/
def remainder (rate : Float) : Float :=
  if rate.isNaN then 1
  else if rate < 0 then 1
  else if 1 < rate then 0
  else 1 - rate

/-- A part of an importance, rounded toward zero. -/
def scaled (sti : Int32) (part : Float) : Int32 :=
  let magnitude : Int := ((UInt32.ofNat sti.toInt.natAbs).toFloat * part).toUInt32.toNat
  clampImportance (if sti.toInt < 0 then -magnitude else magnitude)

/-- Decays every atom's short-term importance. -/
def decay (s : Store) (rate : Float) : Store :=
  { s with byId := s.byId.map fun _ a => a.withSti (scaled a.sti (remainder rate)) }

end BeliefGraph.Store
