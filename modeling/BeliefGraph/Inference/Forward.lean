import BeliefGraph.Inference.Edge
import BeliefGraph.Inference.Progress

/-!
# Forward chaining

A round joins edges end to start: from `a → b` and `b → c` it concludes `a → c`, with the kind of the
first edge and the deduction of their truths. Pairs are taken in the order of the first link and then
of the second; a statement that some edge already makes, or that was concluded earlier in the round,
is left out. The conclusions of a round are computed from the store as it was when the round began,
and then added to it.

A run stops after a given number of rounds or after the first round without conclusions. It stops
early when the store is full.
-/

namespace BeliefGraph

/-- A link to be made. -/
structure Conclusion where
  statement : Statement
  truth : Truth
  deriving DecidableEq

namespace Conclusion

/-- The conclusion of two edges that meet. -/
def ofEdges (first second : Edge) : Conclusion :=
  ⟨⟨first.statement.kind, first.source, second.target⟩, first.truth.deduction second.truth⟩

/-- Keeps the first conclusion of each statement that is not known. -/
def fresh (known : Std.TreeSet Statement) : List Conclusion → List Conclusion
  | [] => []
  | c :: cs =>
    if c.statement ∈ known then fresh known cs
    else c :: fresh (known.insert c.statement) cs

end Conclusion

/-! ## One round -/

/-- Edges under the ids at which they start, each list in the order of the edges. -/
def Edge.bySource (edges : List Edge) : Std.TreeMap Id (List Edge) :=
  edges.foldr (fun e index => index.alter e.source fun rest => some (e :: rest.getD [])) ∅

/-- The edges that a run toward a target may start from. -/
def Edge.startsToward (target : Option Id) (e : Edge) : Bool :=
  target.all e.touches

/-- The conclusions of a round, in order. -/
def Store.conclusions (s : Store) (target : Option Id) : List Conclusion :=
  let edges := s.edges
  let starting := Edge.bySource edges
  let known := Std.TreeSet.ofList (edges.map Edge.statement)
  let followers (first : Edge) := (starting[first.target]?.getD []).filter (·.link != first.link)
  let joined := (edges.filter (Edge.startsToward target)).flatMap fun first =>
    (followers first).map (Conclusion.ofEdges first)
  Conclusion.fresh known joined

/-! ## Runs -/

/-- The links made for some conclusions, the store after them, and why they are not all there. -/
structure Growth where
  atoms : List Atom
  store : Store
  failure : Option StoreError

/-- Makes a link for each conclusion in turn until the store refuses one. -/
def Growth.ofConclusions : Store → List Conclusion → Growth
  | s, [] => ⟨[], s, none⟩
  | s, c :: cs =>
    match s.derive c.statement.kind (.link [c.statement.source, c.statement.target]) c.truth with
    | .error e => ⟨[], s, some e⟩
    | .ok (a, s) =>
      let rest := Growth.ofConclusions s cs
      { rest with atoms := a :: rest.atoms }

namespace Progress

def beginForwardRound (p : Progress) : Progress :=
  { p with ledger := p.ledger.beginForwardRound }

/-- Adds the conclusions of a round. -/
def assert (p : Progress) (conclusions : List Conclusion) : Progress :=
  let growth := Growth.ofConclusions p.store conclusions
  { store := growth.store
    ledger := p.ledger.addDeductions growth.atoms.length
    created := p.created ++ growth.atoms
    failure := growth.failure }

/-- Goes on for at most a number of rounds. -/
def forward (target : Option Id) : Nat → Progress → Progress
  | 0, p => p
  | rounds + 1, p =>
    let p := p.beginForwardRound
    match p.store.conclusions target with
    | [] => p
    | conclusions =>
      let p := p.assert conclusions
      if p.failure.isSome then p else forward target rounds p

end Progress

end BeliefGraph
