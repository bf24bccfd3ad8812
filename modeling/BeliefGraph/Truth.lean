import BeliefGraph.Numeric.Single

/-!
# Truth values

A truth value is uncertain evidence: a strength (the probability of truth), a confidence in that
strength and a count of the evidence seen. The combinators are functions of truth values alone. They
enforce no range: values outside the unit interval pass through. Every operation on strengths and
confidences is rounded to single precision, in the order written; counts saturate.
-/

namespace BeliefGraph

structure Truth where
  strength : Float32
  confidence : Float32
  count : UInt64
  deriving DecidableEq

namespace Truth

/-- The value of an atom about which nothing has been said. -/
def unknown : Truth := ⟨0.5, 0, 0⟩

instance : Inhabited Truth := ⟨unknown⟩

/-- The sum of two counts, or the largest count when the sum passes it. -/
def addCounts (a b : UInt64) : UInt64 :=
  UInt64.ofNat (min (a.toNat + b.toNat) (UInt64.size - 1))

/-- As natural numbers, counts are added up to the largest word. -/
theorem toNat_addCounts (a b : UInt64) :
    (addCounts a b).toNat = min (a.toNat + b.toNat) (UInt64.size - 1) := by
  have h : min (a.toNat + b.toNat) (UInt64.size - 1) < UInt64.size := by
    simp only [UInt64.size]
    omega
  exact UInt64.toNat_ofNat_of_lt' h

/-- Whether a number lies in the unit interval. -/
def inUnitInterval (x : Float32) : Bool :=
  decide (0 ≤ x) && decide (x ≤ 1)

/-- Strength and confidence lie in the unit interval. -/
def isNormalized (t : Truth) : Bool :=
  inUnitInterval t.strength && inUnitInterval t.confidence

/-- Equality up to a tolerance on strength and confidence, exact on the count. -/
def approxEq (a b : Truth) (tolerance : Float32) : Bool :=
  decide ((a.strength - b.strength).abs ≤ tolerance) &&
    decide ((a.confidence - b.confidence).abs ≤ tolerance) && a.count == b.count

/-- Strength and confidence to three places, and the count. -/
def text (t : Truth) : String :=
  "<" ++ Single.fixed 3 t.strength ++ ", " ++ Single.fixed 3 t.confidence ++ ", " ++
    t.count.toNat.repr ++ ">"

/-- A denominator below this is taken for zero. -/
def negligible : Float32 := 1e-9

/-- From `A → B` and `B → C` to `A → C`. -/
def deduction (ab bc : Truth) : Truth where
  strength := ab.strength * bc.strength
  confidence := ab.confidence * bc.confidence
  count := addCounts ab.count bc.count

/-- From `A → B` and `B → A` to the inverse. Strengths at opposite ends leave nothing to divide by;
the strength is then one half. -/
def induction (ab ba : Truth) : Truth :=
  let agree := ab.strength * ba.strength
  let denominator := agree + (1 - ab.strength) * (1 - ba.strength)
  { strength := if denominator.abs < negligible then 0.5 else agree / denominator
    confidence := ab.confidence * ba.confidence * 0.9
    count := ab.count }

/-- Scaled deduction. -/
def abduction (ab bc : Truth) : Truth where
  strength := ab.strength * bc.strength * 0.8
  confidence := ab.confidence * bc.confidence * 0.7
  count := addCounts ab.count bc.count

/-- Merges two estimates of one fact: the strength is the mean weighted by confidence. Without any
confidence the result is unknown, with the counts added. -/
def revision (a b : Truth) : Truth :=
  let total := a.confidence + b.confidence
  let count := addCounts a.count b.count
  if 0 < total then
    { strength := (a.strength * a.confidence + b.strength * b.confidence) / total
      confidence := total / (total + 1)
      count }
  else { unknown with count }

def conjunction (a b : Truth) : Truth where
  strength := a.strength * b.strength
  confidence := a.confidence * b.confidence
  count := addCounts a.count b.count

def disjunction (a b : Truth) : Truth where
  strength := a.strength + b.strength - a.strength * b.strength
  confidence := (a.confidence + b.confidence) / 2
  count := addCounts a.count b.count

def negation (a : Truth) : Truth :=
  { a with strength := 1 - a.strength }

end Truth

end BeliefGraph
