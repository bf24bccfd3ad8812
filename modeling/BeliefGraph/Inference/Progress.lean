import BeliefGraph.Store.Basic

/-!
# Growth of a store under inference

Inference adds atoms to a store and counts what it does. A run that the store refuses to let grow
stops there: what it has made and counted so far stays.
-/

namespace BeliefGraph

/-- Counters of the work done. -/
structure Ledger where
  /-- Atoms made. -/
  inferences : Nat
  /-- Rounds of forward chaining begun. -/
  forwardRounds : Nat
  /-- Rounds of backward chaining begun. -/
  backwardRounds : Nat
  /-- Rules applied. -/
  ruleMatches : Nat
  /-- Truth values computed. -/
  truthComputations : Nat
  deriving DecidableEq, Repr

namespace Ledger

def zero : Ledger := ⟨0, 0, 0, 0, 0⟩

def beginForwardRound (l : Ledger) : Ledger :=
  { l with forwardRounds := l.forwardRounds + 1 }

def addBackwardRounds (l : Ledger) (rounds : Nat) : Ledger :=
  { l with backwardRounds := l.backwardRounds + rounds }

/-- Counts links made by forward chaining, each with its truth. -/
def addDeductions (l : Ledger) (n : Nat) : Ledger :=
  { l with
    inferences := l.inferences + n
    truthComputations := l.truthComputations + n }

def addRevision (l : Ledger) : Ledger :=
  { l with truthComputations := l.truthComputations + 1 }

/-- Counts the application of a rule, which may or may not have computed a truth. -/
def addRuleMatch (l : Ledger) (computedTruth : Bool) : Ledger :=
  { l with
    inferences := l.inferences + 1
    ruleMatches := l.ruleMatches + 1
    truthComputations := l.truthComputations + computedTruth.toNat }

end Ledger

/-- Makes an atom and gives it a truth. -/
def Store.derive (s : Store) (kind : Kind) (shape : Shape) (truth : Truth) :
    Except StoreError (Atom × Store) :=
  (s.create kind shape).map fun (a, s) =>
    ({ a with truth }, s.modify a.id (fun _ => truth) fun x => x)

/-- How far a run has come. -/
structure Progress where
  store : Store
  ledger : Ledger
  /-- The atoms made by the run, in order. -/
  created : List Atom
  /-- Why the run could not go on. -/
  failure : Option StoreError

namespace Progress

/-- A run that has not made anything yet. -/
def start (store : Store) (ledger : Ledger) : Progress := ⟨store, ledger, [], none⟩

/-- What a run answers: the atoms made, or the reason why it stopped. -/
def result (p : Progress) : Except StoreError (List Atom) :=
  match p.failure with
  | none => .ok p.created
  | some e => .error e

end Progress

end BeliefGraph
