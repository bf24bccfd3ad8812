import BeliefGraph.Json.Record
import BeliefGraph.Pattern
import BeliefGraph.Settings.Basic

/-!
# JSON forms of the domain

Each type has one JSON form: a record for values with parts, a name for a kind or a mode, a number for
an id. A shape is tagged: its field `shape` says which of the two it is, and as an array its first item
does. Reading a form and writing it are told apart by `ofJson?` and `toJson`.
-/

namespace BeliefGraph

open Json (Record)

/-- The deepest nesting that is read. -/
def Json.maxDepth : Nat := 127

/-- An object with named members. -/
def Json.ofFields (fields : List (String × Json)) : Json :=
  .object (fields.map fun (name, value) => (name.toList.map Char.toNat, value))

def Json.ofOption {α : Type} (encode : α → Json) : Option α → Json
  | none => .null
  | some a => encode a

def Json.ofInt (n : Int) : Json := .number (Json.Number.ofInt n)

def Id.toJson (id : Id) : Json := Json.ofInt id

/-! ## Values of atoms -/

def Truth.ofJson? (j : Json) : Option Truth := do
  let r ← j.record? ["strength", "confidence", "count"]
  let strength ← r.required "strength" Json.single?
  let confidence ← r.required "confidence" Json.single?
  let count ← r.required "count" Json.word?
  return ⟨strength, confidence, UInt64.ofNat count⟩

/-- An importance. -/
def Json.importance? (j : Json) : Option Int32 :=
  (j.intBetween? (-0x80000000) 0x80000000).map Int32.ofInt

def Attention.ofJson? (j : Json) : Option Attention := do
  let r ← j.record? ["sti", "lti", "vlti"]
  let sti ← r.required "sti" Json.importance?
  let lti ← r.required "lti" Json.importance?
  let vlti ← r.required "vlti" Json.importance?
  return ⟨sti, lti, vlti⟩

def Attention.toJson (a : Attention) : Json :=
  Json.ofFields [("sti", Json.ofInt a.sti.toInt), ("lti", Json.ofInt a.lti.toInt),
    ("vlti", Json.ofInt a.vlti.toInt)]

/-! ## Kinds and modes -/

namespace Kind

/-- The name of a kind in JSON, which does not say whether it is for nodes or for links. -/
def shortName : Kind → String
  | node => "Node"
  | link => "Link"
  | concept => "Concept"
  | predicate => "Predicate"
  | evaluation => "Evaluation"
  | inheritance => "Inheritance"
  | similarity => "Similarity"
  | implication => "Implication"
  | execution => "Execution"
  | list => "List"

def ofShortName? (name : String) : Option Kind :=
  all.find? fun k => k.shortName == name

def ofJson? (j : Json) : Option Kind := j.variant?.bind ofShortName?

def toJson (k : Kind) : Json := Json.ofText k.shortName

/-- The short name of a kind is read as that kind. -/
theorem ofShortName?_shortName (k : Kind) : ofShortName? k.shortName = some k := by
  cases k <;> decide

end Kind

def SpreadMode.ofJson? (j : Json) : Option SpreadMode := j.variant?.bind SpreadMode.ofName?

def SpreadMode.toJson (m : SpreadMode) : Json := Json.ofText m.name

/-! ## Shapes -/

namespace Shape

def toJson : Shape → Json
  | .node label => Json.ofFields [("shape", Json.ofText "node"),
      ("label", Json.ofOption Json.ofText label)]
  | .link outgoing => Json.ofFields [("shape", Json.ofText "link"),
      ("outgoing", .array (outgoing.map Id.toJson))]

def nodeOfJson? (j : Json) : Option Shape := do
  let r ← j.record? ["label"]
  return .node (← r.optional "label" Json.string?)

def linkOfJson? (j : Json) : Option Shape := do
  let r ← j.record? ["outgoing"]
  return .link (← r.required "outgoing" (Json.list? Json.word?))

/-- The shape that a tag asks for, read from what stands beside the tag. -/
def ofTag? (tag : Json) (rest : Json) : Option Shape := do
  match ← tag.string? with
  | "node" => nodeOfJson? rest
  | "link" => linkOfJson? rest
  | _ => none

/-- Whether a member of an object is the tag. -/
def isTag (m : List Nat × Json) : Bool :=
  m.1 == "shape".toList.map Char.toNat

/-- Every part of the value must have a meaning, those that the shape does not use too. -/
def ofJson? (j : Json) : Option Shape :=
  if !j.isMeaningful Json.maxDepth then none
  else
    match j with
    | .array (tag :: rest) => ofTag? tag (.array rest)
    | .object members =>
      match members.filter isTag with
      | [(_, tag)] => ofTag? tag (.object (members.filter (!isTag ·)))
      | _ => none
    | _ => none

end Shape

/-! ## Patterns -/

namespace Pattern

/-- Reads a pattern; `depth` arrays and objects may nest. -/
def ofJsonWithin? : Nat → Json → Option Pattern
  | depth + 2, j => do
    let r ← j.record? ["kind", "label", "children", "wildcard"]
    let kind ← r.optional "kind" Kind.ofJson?
    let label ← r.optional "label" Json.string?
    let children ← r.required "children" (Json.list? (ofJsonWithin? depth))
    let wildcard ← r.required "wildcard" Json.bool?
    return ⟨kind, label, children, wildcard⟩
  | _, _ => none

def ofJson? (j : Json) : Option Pattern := ofJsonWithin? Json.maxDepth j

mutual

def toJson : Pattern → Json
  | ⟨kind, label, children, wildcard⟩ =>
    Json.ofFields [("kind", Json.ofOption Kind.toJson kind),
      ("label", Json.ofOption Json.ofText label), ("children", .array (toJsons children)),
      ("wildcard", .bool wildcard)]

def toJsons : List Pattern → List Json
  | [] => []
  | p :: ps => toJson p :: toJsons ps

end

end Pattern

/-! ## Settings

Every setting may be left out. -/

namespace Settings

def storeOfJson? (j : Json) : Option StoreSettings := do
  let r ← j.record? ["max_atoms"]
  return { maxAtoms := ← r.orDefault "max_atoms" none (Json.nullable Json.word?) }

def reasonerOfJson? (j : Json) : Option ReasonerSettings := do
  let fallback : ReasonerSettings := {}
  let r ← j.record? ["max_steps"]
  return { maxSteps := ← r.orDefault "max_steps" fallback.maxSteps Json.word? }

def chainerOfJson? (j : Json) : Option ChainerSettings := do
  let fallback : ChainerSettings := {}
  let r ← j.record? ["max_iter", "initial_complexity", "complexity_step"]
  let maxIterations ← r.orDefault "max_iter" fallback.maxIterations Json.word?
  let initialComplexity ← r.orDefault "initial_complexity" fallback.initialComplexity Json.single?
  let complexityStep ← r.orDefault "complexity_step" fallback.complexityStep Json.single?
  return ⟨maxIterations, initialComplexity, complexityStep⟩

/-- A declared budget. -/
def budgetOfJson? (j : Json) : Option Int := j.intBetween? (-0x8000000000000000) 0x8000000000000000

def allocatorOfJson? (j : Json) : Option AllocatorSettings := do
  let fallback : AllocatorSettings := {}
  let r ← j.record? ["total_sti", "total_lti", "focus_size", "spread_mode"]
  let totalSti ← r.orDefault "total_sti" fallback.totalSti budgetOfJson?
  let totalLti ← r.orDefault "total_lti" fallback.totalLti budgetOfJson?
  let focusSize ← r.orDefault "focus_size" fallback.focusSize Json.word?
  let spreadMode ← r.orDefault "spread_mode" fallback.spreadMode SpreadMode.ofJson?
  return ⟨totalSti, totalLti, focusSize, spreadMode⟩

/-- Reads settings without validating them. -/
def ofJson? (j : Json) : Option Settings := do
  let r ← j.record? ["space", "pln", "ure", "ecan"]
  let store ← r.orDefault "space" {} storeOfJson?
  let reasoner ← r.orDefault "pln" {} reasonerOfJson?
  let chainer ← r.orDefault "ure" {} chainerOfJson?
  let allocator ← r.orDefault "ecan" {} allocatorOfJson?
  return ⟨store, reasoner, chainer, allocator⟩

end Settings

end BeliefGraph
