import BeliefGraph.Store.Basic
import BeliefGraph.Pattern

/-!
# Asking a store

Queries list atoms in the order of their ids. Those by label and by reference go through an index.
-/

namespace BeliefGraph.Store

/-- The atoms that satisfy a condition. -/
def query (s : Store) (condition : Atom → Bool) : List Atom :=
  s.atoms.filter condition

/-- The live atoms among some ids. -/
def resolveAll (s : Store) (ids : List Id) : List Atom :=
  ids.filterMap s.get?

/-- The links that reference an id. -/
def incoming (s : Store) (id : Id) : List Atom :=
  s.resolveAll (s.referrers.ids id)

/-- The atoms that match a pattern. -/
def matching (s : Store) (p : Pattern) : List Atom :=
  s.query (p.accepts s.get?)

/-- The nodes of a kind with a label. -/
def findNodes (s : Store) (kind : Kind) (label : String) : List Atom :=
  s.resolveAll (s.labelled.ids ⟨kind, label⟩)

/-- What each reference of an atom resolves to. -/
def resolveOutgoing (s : Store) (a : Atom) : List (Option Atom) :=
  a.outgoing.map s.get?

end BeliefGraph.Store
