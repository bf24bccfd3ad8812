import BeliefGraph.Attention
import BeliefGraph.Inference.Rule

/-!
# Settings

The settings of a space, in one section for each of its parts. Every setting has a default.
`Settings.validate` refuses values that are well formed and make no sense, and names the first.
-/

namespace BeliefGraph

structure StoreSettings where
  /-- The most live atoms; any number if absent. -/
  maxAtoms : Option Nat := none

structure ReasonerSettings where
  /-- The rounds of chaining when a call does not say how many. -/
  maxSteps : Nat := 1000

structure ChainerSettings where
  /-- The rounds of one rule-guided run. -/
  maxIterations : Nat := 100
  initialComplexity : Float32 := 1
  /-- What each applied rule adds to the complexity. -/
  complexityStep : Float32 := 0.1

structure AllocatorSettings where
  /-- The declared budget of short-term importance. -/
  totalSti : Int := 0
  /-- The declared budget of long-term importance. -/
  totalLti : Int := 0
  /-- The most atoms in the focus. -/
  focusSize : Nat := 20
  spreadMode : SpreadMode := .broadcast

structure Settings where
  store : StoreSettings := {}
  reasoner : ReasonerSettings := {}
  chainer : ChainerSettings := {}
  allocator : AllocatorSettings := {}

namespace Settings

instance : Inhabited Settings := ⟨{}⟩

/-- A complexity must be finite and not below zero. -/
def isComplexity (x : Float32) : Bool :=
  x.isFinite && !decide (x < 0)

/-- What is said of a number that cannot be a complexity. -/
def notComplexity (field : String) (x : Float32) : ValidationError :=
  .outOfRange field (Single.text x ++ " is not a finite, non-negative number")

def validate (s : Settings) : Except ValidationError Unit :=
  if !isComplexity s.chainer.initialComplexity then
    .error (notComplexity "ure.initial_complexity" s.chainer.initialComplexity)
  else if !isComplexity s.chainer.complexityStep then
    .error (notComplexity "ure.complexity_step" s.chainer.complexityStep)
  else if s.store.maxAtoms = some 0 then
    .error (.outOfRange "space.max_atoms" "a store must be able to hold at least one atom")
  else .ok ()

end Settings

end BeliefGraph
