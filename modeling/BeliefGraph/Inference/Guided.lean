import BeliefGraph.Inference.Forward
import BeliefGraph.Inference.Rule

/-!
# Rule-guided chaining

Each round applies one rule: of the rules whose premises all match, the one with the highest priority,
and of equal priorities the one registered first. A premise is bound to the first atom that matches
it. Every applied rule adds to the complexity, which lowers all priorities and stays with the chainer
from run to run.

A run ends after its rounds, or with an atom that equals the goal, before the complexity grows. When
no rule applies, one round of forward chaining toward the target ends the run. Without any rules a run
is forward chaining.
-/

namespace BeliefGraph

/-- The state that a rule-guided chainer keeps from run to run. -/
structure GuidedChainer where
  complexity : Float32
  /-- What each applied rule adds to the complexity. -/
  complexityStep : Float32
  maxIterations : Nat

/-- A rule, its priority, and the atoms that its premises are bound to. -/
structure Choice where
  priority : Float32
  rule : Rule
  bound : List Atom

namespace Choice

/-- The first match of every premise. -/
def bind? (s : Store) (premises : List Pattern) : Option (List Atom) :=
  premises.mapM fun p => (s.matching p).head?

/-- The choice of a rule, if its premises match. -/
def ofRule? (s : Store) (complexity : Float32) (rule : Rule) : Option Choice :=
  (bind? s rule.premises).map fun bound => ⟨rule.priority complexity, rule, bound⟩

/-- The better of the best choice so far and the choice of a further rule, which must have a higher
priority to win. -/
def better (s : Store) (complexity : Float32) (best : Option Choice) (rule : Rule) :
    Option Choice :=
  match best with
  | none => ofRule? s complexity rule
  | some choice =>
    if rule.priority complexity ≤ choice.priority then best
    else (ofRule? s complexity rule).or best

/-- The choice of a round. -/
def select (s : Store) (complexity : Float32) (rules : List Rule) : Option Choice :=
  rules.foldl (better s complexity) none

end Choice

/-- Whether an atom equals the goal of a run: it is that atom, or has its kind and shape. -/
def Atom.meets (a goal : Atom) : Bool :=
  goal.id == a.id || (goal.kind == a.kind && goal.shape == a.shape)

/-- How far a rule-guided run has come. -/
structure GuidedProgress where
  progress : Progress
  complexity : Float32

/-- What stays the same during a run. -/
structure GuidedRun where
  rules : List Rule
  target : Option Id
  /-- The atom that the target resolved to when the run began. -/
  goal : Option Atom
  complexityStep : Float32
  /-- The most atoms that the run may answer. -/
  cap : Nat

namespace GuidedRun

/-- The round in which no rule applies. -/
def fallBack (run : GuidedRun) (g : GuidedProgress) : GuidedProgress :=
  let p := g.progress
  let forward := Progress.forward run.target 1 { p with created := [] }
  let room := run.cap - p.created.length
  { g with progress := { forward with created := p.created ++ forward.created.take room } }

/-- Goes on for at most a number of rounds. A round need not look whether the answer is full already: an
application adds one atom to it, so before each round it has fewer atoms than there are rounds in all,
and `cap` is no less than that. -/
def rounds (run : GuidedRun) : Nat → GuidedProgress → GuidedProgress
  | 0, g => g
  | n + 1, g =>
    let p := g.progress
    match Choice.select p.store g.complexity run.rules with
    | none => run.fallBack g
    | some choice =>
      let truth := choice.rule.truth? (choice.bound.map Atom.truth)
      let shape := choice.rule.shape choice.bound
      match p.store.derive choice.rule.conclusionKind shape (truth.getD Truth.unknown) with
      | .error e => { g with progress := { p with failure := some e } }
      | .ok (a, store) =>
        let p := { p with
          store
          ledger := p.ledger.addRuleMatch truth.isSome
          created := p.created ++ [a] }
        if run.goal.any a.meets then { g with progress := p }
        else run.rounds n ⟨p, g.complexity + run.complexityStep⟩

end GuidedRun

/-- The largest number of atoms that a run answers. -/
def GuidedChainer.cap (c : GuidedChainer) : Nat :=
  min (2 * c.maxIterations) (UInt64.size - 1)

/-- Runs the chainer toward a target, or without one. -/
def GuidedChainer.run (c : GuidedChainer) (rules : List Rule) (p : Progress) (target : Option Id) :
    GuidedProgress :=
  if rules.isEmpty then
    let forward := p.forward target c.maxIterations
    ⟨{ forward with created := forward.created.take c.cap }, c.complexity⟩
  else
    let goal := target.bind p.store.get?
    GuidedRun.rounds ⟨rules, target, goal, c.complexityStep, c.cap⟩ c.maxIterations
      ⟨p, c.complexity⟩

end BeliefGraph
