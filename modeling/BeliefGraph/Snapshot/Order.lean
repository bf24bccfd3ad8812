import Std.Data.TreeSet
import BeliefGraph.Atom

/-!
# An order in which links can be made

Links can be made again one after the other if each comes after those that it references. Passes are
made over the links that are waiting: a link is taken when all the links that it references have been
taken, in the same pass or an earlier one. References to what is not among the links do not count. A
pass that takes nothing shows that some links reference each other in a cycle.
-/

namespace BeliefGraph.Snapshot

/-- Whether a link references no link that is still waiting. -/
def isReady (among taken : Std.TreeSet Id) (a : Atom) : Bool :=
  a.outgoing.all fun id => !among.contains id || taken.contains id

/-- What a pass took, in order, and what it left. -/
structure Pass where
  ready : List Atom
  waiting : List Atom
  taken : Std.TreeSet Id

/-- Goes over the links that are waiting. -/
def Pass.run (among : Std.TreeSet Id) : Std.TreeSet Id → List Atom → Pass
  | taken, [] => ⟨[], [], taken⟩
  | taken, a :: links =>
    if isReady among taken a then
      let rest := run among (taken.insert a.id) links
      { rest with ready := a :: rest.ready }
    else
      let rest := run among taken links
      { rest with waiting := a :: rest.waiting }

/-- Makes passes until nothing is waiting, at most a number of them. The error is the id of the first
link that waits in vain. -/
def passes (among : Std.TreeSet Id) : Nat → Std.TreeSet Id → List Atom → Except Id (List Atom)
  | _, _, [] => .ok []
  | 0, _, a :: _ => .error a.id
  | n + 1, taken, a :: links =>
    let pass := Pass.run among taken (a :: links)
    if pass.ready.isEmpty then .error a.id
    else (passes among n pass.taken pass.waiting).map (pass.ready ++ ·)

/-- The links in an order in which they can be made, or the id of a link for which there is none. -/
def creationOrder (links : List Atom) : Except Id (List Atom) :=
  passes (Std.TreeSet.ofList (links.map Atom.id)) links.length ∅ links

end BeliefGraph.Snapshot
