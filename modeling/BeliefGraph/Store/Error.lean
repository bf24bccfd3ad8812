import BeliefGraph.Atom

/-!
# What a store can refuse

A store names an atom that it does not hold, or says that it is full.
-/

namespace BeliefGraph

inductive StoreError
  /-- No live atom has the id. -/
  | notFound (id : Id)
  /-- The store already holds as many atoms as it may. -/
  | exhausted (limit : Nat)
  /-- The medium behind a store failed. -/
  | backend (reason : String)
  deriving DecidableEq, Repr

def StoreError.message : StoreError → String
  | .notFound id => "Atom not found: " ++ id.repr
  | .exhausted limit => "Resource exhausted: store is limited to " ++ limit.repr ++ " atoms"
  | .backend reason => "Storage backend error: " ++ reason

end BeliefGraph
