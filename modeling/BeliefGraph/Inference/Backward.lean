import BeliefGraph.Inference.Edge

/-!
# Backward chaining

The premises of an atom are the atoms from which an edge leads to it. Backward chaining searches them
breadth first: the first round finds the premises of the goal, each further round those of the atoms
that the round before found. An atom is found once. An id that does not resolve is neither found nor
followed. The search ends after a given number of rounds or with a round that finds nothing.
-/

namespace BeliefGraph

/-- The ids from which an edge leads to an id, in the order of the links. -/
def Store.premises (s : Store) (conclusion : Id) : List Id :=
  ((s.incoming conclusion).filterMap Edge.ofAtom?).filterMap fun e =>
    if e.target = conclusion then some e.source else none

/-- The result of looking through a list of ids: the live atoms met for the first time, and all ids
met so far. -/
structure Layer where
  found : List Atom
  seen : Std.TreeSet Id

/-- Looks through a list of ids. -/
def Layer.explore (s : Store) (seen : Std.TreeSet Id) : List Id → Layer
  | [] => ⟨[], seen⟩
  | id :: ids =>
    if id ∈ seen then explore s seen ids
    else
      let rest := explore s (seen.insert id) ids
      match s.get? id with
      | some a => { rest with found := a :: rest.found }
      | none => rest

/-- What a search found, and the number of rounds that it began. -/
structure Search where
  found : List Atom
  rounds : Nat

/-- Searches on from a layer. -/
def Search.run (s : Store) : Nat → Std.TreeSet Id → List Id → Search
  | 0, _, _ => ⟨[], 0⟩
  | rounds + 1, seen, frontier =>
    let layer := Layer.explore s seen (frontier.flatMap s.premises)
    if layer.found.isEmpty then ⟨[], 1⟩
    else
      let rest := run s rounds layer.seen (layer.found.map Atom.id)
      ⟨layer.found ++ rest.found, rest.rounds + 1⟩

/-- Searches backward from a goal. -/
def Store.backward (s : Store) (goal : Id) (rounds : Nat) : Search :=
  Search.run s rounds (Std.TreeSet.ofList [goal]) [goal]

end BeliefGraph
