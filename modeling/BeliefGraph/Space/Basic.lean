import BeliefGraph.Inference.Backward
import BeliefGraph.Inference.Guided
import BeliefGraph.Settings.Basic
import BeliefGraph.Store.Focus
import BeliefGraph.Store.Spread

/-!
# Spaces

A space is a store together with what works on it: a reasoner with its rules and its ledger, a
rule-guided chainer, and an allocator of attention with its focus. The parts share the store, so each
operation is one on the space. An operation answers a value or an error, and the space after it. When
it fails because an atom is missing the space is as before; inference that a full store stops keeps
what it has made and counted.
-/

namespace BeliefGraph

structure Reasoner where
  /-- In the order in which they were registered. -/
  rules : List Rule
  ledger : Ledger
  spreadMode : SpreadMode
  /-- The rounds of chaining when a call does not say how many. -/
  maxSteps : Nat

structure Allocator where
  /-- The declared budget of short-term importance. -/
  totalSti : Int
  /-- The declared budget of long-term importance. -/
  totalLti : Int
  /-- The most atoms in the focus. -/
  focusSize : Nat
  spreadMode : SpreadMode
  /-- The ids that were most important at the last update, the highest first. -/
  focus : List Id

structure Space where
  store : Store
  reasoner : Reasoner
  chainer : GuidedChainer
  allocator : Allocator

/-- The declared budgets beside what the store holds. -/
structure Budget where
  totalSti : Int
  totalLti : Int
  allocatedSti : Int
  allocatedLti : Int
  deriving DecidableEq, Repr

/-- Whether the store holds more short-term importance than declared. -/
def Budget.isOverdrawn (b : Budget) : Bool :=
  decide (b.totalSti < b.allocatedSti)

namespace Space

/-- An empty space. -/
def ofSettings (s : Settings) : Space where
  store := Store.empty s.store.maxAtoms
  reasoner := ⟨[], Ledger.zero, s.allocator.spreadMode, s.reasoner.maxSteps⟩
  chainer := ⟨s.chainer.initialComplexity, s.chainer.complexityStep, s.chainer.maxIterations⟩
  allocator := ⟨s.allocator.totalSti, s.allocator.totalLti, s.allocator.focusSize,
    s.allocator.spreadMode, []⟩

/-- Takes over the store after an operation on it that cannot fail half way. -/
def onStore {α : Type} (space : Space) : Except StoreError (α × Store) →
    Except StoreError α × Space
  | .ok (a, store) => (.ok a, { space with store })
  | .error e => (.error e, space)

/-! ## Inference -/

def withLedger (space : Space) (f : Ledger → Ledger) : Space :=
  { space with reasoner := { space.reasoner with ledger := f space.reasoner.ledger } }

/-- Registers a rule and gives its position. -/
def addRule (space : Space) (rule : Rule) : Nat × Space :=
  (space.reasoner.rules.length,
    { space with reasoner := { space.reasoner with rules := space.reasoner.rules ++ [rule] } })

/-- A run of inference that has not made anything yet. -/
def startRun (space : Space) : Progress := Progress.start space.store space.reasoner.ledger

/-- Takes over what a run has made and counted. -/
def finishRun (space : Space) (p : Progress) : Except StoreError (List Atom) × Space :=
  (p.result, { space.withLedger (fun _ => p.ledger) with store := p.store })

/-- Chains forward for at most a number of rounds. -/
def forward (space : Space) (target : Option Id) (rounds : Nat) :
    Except StoreError (List Atom) × Space :=
  space.finishRun (space.startRun.forward target rounds)

/-- Chains backward from a live goal for at most a number of rounds. -/
def backward (space : Space) (goal : Id) (rounds : Nat) : Except StoreError (List Atom) × Space :=
  if space.store.contains goal then
    let search := space.store.backward goal rounds
    (.ok search.found, space.withLedger (·.addBackwardRounds search.rounds))
  else (.error (.notFound goal), space)

/-- Runs the rule-guided chainer. -/
def chain (space : Space) (target : Option Id) : Except StoreError (List Atom) × Space :=
  let g := space.chainer.run space.reasoner.rules space.startRun target
  let (result, space) := space.finishRun g.progress
  (result, { space with chainer := { space.chainer with complexity := g.complexity } })

/-- Merges evidence into the truth of an atom. -/
def revise (space : Space) (id : Id) (evidence : Truth) : Except StoreError Truth × Space :=
  match space.store.reviseTruth id evidence with
  | .ok (truth, store) => (.ok truth, { space.withLedger Ledger.addRevision with store })
  | .error e => (.error e, space)

/-- The truth of an atom. -/
def evaluate (space : Space) (id : Id) : Except StoreError Truth :=
  (space.store.get id).map Atom.truth

/-- The attention of an atom. -/
def attention (space : Space) (id : Id) : Except StoreError Attention :=
  (space.store.get id).map Atom.attention

/-- Adds to the short-term importance of an atom and leaves the focus as it is. -/
def stimulate (space : Space) (id : Id) (delta : Int32) : Except StoreError Int32 × Space :=
  space.onStore (space.store.addSti id delta)

/-- Spreads in the mode of the reasoner. -/
def spreadByReasoner (space : Space) (id : Id) : Except StoreError Store.Spread × Space :=
  space.onStore (space.store.spread id space.reasoner.spreadMode)

def resetLedger (space : Space) : Space :=
  space.withLedger fun _ => Ledger.zero

/-! ## Attention -/

/-- Computes the focus anew. -/
def updateFocus (space : Space) : Space :=
  { space with allocator := { space.allocator with
      focus := space.store.mostImportant space.allocator.focusSize } }

/-- Adds to the short-term importance of an atom and updates the focus. -/
def allocate (space : Space) (id : Id) (delta : Int32) : Except StoreError Int32 × Space :=
  match space.store.addSti id delta with
  | .ok (sti, store) => (.ok sti, updateFocus { space with store })
  | .error e => (.error e, space)

/-- Spreads in the mode of the allocator; the focus stays as it is. -/
def spreadByAllocator (space : Space) (id : Id) : Except StoreError Store.Spread × Space :=
  space.onStore (space.store.spread id space.allocator.spreadMode)

/-- Decays all short-term importance and updates the focus. -/
def decay (space : Space) (rate : Float) : Space :=
  updateFocus { space with store := space.store.decay rate }

/-- The atoms of the focus that are still live. -/
def focus (space : Space) : List Atom :=
  space.store.resolveAll space.allocator.focus

/-- Whether an id was in the focus at the last update. -/
def inFocus (space : Space) (id : Id) : Bool :=
  space.allocator.focus.contains id

def budget (space : Space) : Budget where
  totalSti := space.allocator.totalSti
  totalLti := space.allocator.totalLti
  allocatedSti := space.store.total Attention.sti
  allocatedLti := space.store.total Attention.lti

end Space

end BeliefGraph
