import BeliefGraph.Truth

/-!
# Formulas

A formula computes the truth of a conclusion from the truths of the premises, in the order of the
premises. The binary combinators fold from the left, so a single input passes through and no input
gives the unknown value. Negation looks at the first input alone.
-/

namespace BeliefGraph

inductive Formula
  | deduction
  | induction
  | abduction
  | revision
  | conjunction
  | disjunction
  | negation
  /-- Any function of all inputs. -/
  | custom (combine : List Truth → Truth)

namespace Formula

/-- Folds a binary combinator from the left. -/
def fold (combine : Truth → Truth → Truth) : List Truth → Truth
  | [] => Truth.unknown
  | first :: rest => rest.foldl combine first

/-- The truth of the conclusion. -/
def compute : Formula → List Truth → Truth
  | deduction, inputs => fold Truth.deduction inputs
  | induction, inputs => fold Truth.induction inputs
  | abduction, inputs => fold Truth.abduction inputs
  | revision, inputs => fold Truth.revision inputs
  | conjunction, inputs => fold Truth.conjunction inputs
  | disjunction, inputs => fold Truth.disjunction inputs
  | negation, [] => Truth.unknown
  | negation, first :: _ => Truth.negation first
  | custom combine, inputs => combine inputs

def name : Formula → String
  | deduction => "deduction"
  | induction => "induction"
  | abduction => "abduction"
  | revision => "revision"
  | conjunction => "and"
  | disjunction => "or"
  | negation => "not"
  | custom _ => "custom"

/-- The formulas that need no function to be given. -/
def builtIn : List Formula :=
  [deduction, induction, abduction, revision, conjunction, disjunction, negation]

end Formula

end BeliefGraph
