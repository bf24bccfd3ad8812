import BeliefGraph.Pattern
import BeliefGraph.Truth.Formula

/-!
# Inference rules

A rule has premises, a conclusion and a weight, and may have a formula for the truth of what it
concludes. Rules are made from drafts, which may lack parts; `Rule.Draft.build` says what is wrong
with a draft that cannot become a rule.
-/

namespace BeliefGraph

/-- What is wrong with a rule or a setting. -/
inductive ValidationError
  | missingField (field : String)
  | noPremises (rule : String)
  | unspecifiedConclusionKind (rule : String)
  | nonFiniteWeight (rule : String) (weight : Float32)
  | outOfRange (field reason : String)

def ValidationError.message : ValidationError → String
  | .missingField field => "Required field '" ++ field ++ "' is missing"
  | .noPremises rule => "Rule '" ++ rule ++ "' has no premises"
  | .unspecifiedConclusionKind rule =>
    "Rule '" ++ rule ++ "' conclusion must name a concrete atom kind"
  | .nonFiniteWeight rule weight =>
    "Rule '" ++ rule ++ "' weight " ++ Single.text weight ++ " is not finite"
  | .outOfRange field reason => "Setting '" ++ field ++ "' is out of range: " ++ reason

structure Rule where
  name : String
  /-- Matched in order, each by one atom. -/
  premises : List Pattern
  conclusion : Pattern
  /-- The kind of the atom that the rule makes. -/
  conclusionKind : Kind
  formula : Option Formula
  weight : Float32
  premises_ne_nil : premises ≠ []
  weight_finite : weight.isFinite = true

namespace Rule

/-- The weight, divided by one more than the complexity reached. -/
def priority (r : Rule) (complexity : Float32) : Float32 :=
  r.weight / (1 + complexity)

/-- Whether the rule makes a link over what its premises matched, and not a node: both the conclusion
and the premises must have at least two parts. -/
def concludesLink (r : Rule) : Bool :=
  decide (2 ≤ r.conclusion.children.length) && decide (2 ≤ r.premises.length)

/-- The shape of the atom that the rule makes over the atoms its premises matched. -/
def shape (r : Rule) (bound : List Atom) : Shape :=
  if r.concludesLink then .link (bound.map Atom.id) else .node r.conclusion.label

/-- The truth of what the rule concludes: the formula over the truths of what was matched; without a
formula the deduction of the first two, if there are two. -/
def truth? (r : Rule) (inputs : List Truth) : Option Truth :=
  match r.formula, inputs with
  | some formula, _ => some (formula.compute inputs)
  | none, first :: second :: _ => some (first.deduction second)
  | none, _ => none

/-- A rule in the making. -/
structure Draft where
  name : String
  premises : List Pattern
  conclusion : Option Pattern
  formula : Option Formula
  weight : Float32

/-- A draft with a name alone; the weight is one. -/
def Draft.named (name : String) : Draft := ⟨name, [], none, none, 1⟩

/-- The rule that a draft describes. The faults are looked for in this order: no conclusion, no
premises, a conclusion without a kind of its own, a weight that is not finite. -/
def Draft.build (d : Draft) : Except ValidationError Rule :=
  match d.conclusion with
  | none => .error (.missingField "conclusion")
  | some conclusion =>
    if hp : d.premises = [] then .error (.noPremises d.name)
    else
      match if conclusion.wildcard then none else conclusion.kind with
      | none => .error (.unspecifiedConclusionKind d.name)
      | some conclusionKind =>
        if hw : d.weight.isFinite = true then
          .ok {
            name := d.name
            premises := d.premises
            conclusion
            conclusionKind
            formula := d.formula
            weight := d.weight
            premises_ne_nil := hp
            weight_finite := hw }
        else .error (.nonFiniteWeight d.name d.weight)

end Rule

end BeliefGraph
