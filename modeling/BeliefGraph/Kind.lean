/-!
# Kinds of atoms

The kinds form a closed set. Each has one name, which the snapshot format and all printed forms use.
-/

namespace BeliefGraph

/-- What an atom stands for. -/
inductive Kind
  /-- A node without a type. -/
  | node
  /-- A link without a type. -/
  | link
  /-- A concept, such as "cat". -/
  | concept
  /-- A predicate, such as "likes". -/
  | predicate
  /-- A predicate applied to a list of arguments. -/
  | evaluation
  /-- The first reference is a subtype of the second. -/
  | inheritance
  /-- Symmetric similarity. -/
  | similarity
  /-- The first reference implies the second. -/
  | implication
  /-- The recorded output of an executed schema. -/
  | execution
  /-- An ordered argument list. -/
  | list
  deriving DecidableEq, Repr, Inhabited

namespace Kind

/-- Every kind, in the order of declaration. -/
def all : List Kind :=
  [node, link, concept, predicate, evaluation, inheritance, similarity, implication, execution, list]

def name : Kind → String
  | node => "Node"
  | link => "Link"
  | concept => "ConceptNode"
  | predicate => "PredicateNode"
  | evaluation => "EvaluationLink"
  | inheritance => "InheritanceLink"
  | similarity => "SimilarityLink"
  | implication => "ImplicationLink"
  | execution => "ExecutionLink"
  | list => "ListLink"

/-- The kind with a name. -/
def ofName? (name : String) : Option Kind :=
  all.find? fun k => k.name == name

/-- What is said about a name that no kind has. -/
def unknownMessage (name : String) : String :=
  "unknown atom kind: " ++ name

/-- The kinds that are used for nodes. -/
def isNodeKind : Kind → Bool
  | node | concept | predicate => true
  | _ => false

/-- The kinds that are used for links. -/
def isLinkKind (k : Kind) : Bool :=
  !k.isNodeKind

/-- The link kinds that chaining walks along. -/
def isChainable : Kind → Bool
  | inheritance | implication => true
  | _ => false

/-- The list of kinds is complete. -/
theorem mem_all (k : Kind) : k ∈ all := by
  cases k <;> decide

/-- The position of a kind in the order of declaration. -/
def index (k : Kind) : Nat :=
  all.idxOf k

/-- A kind is determined by its place in the list of kinds. -/
theorem index_injective {a b : Kind} (h : a.index = b.index) : a = b := by
  cases a <;> cases b <;> first | rfl | exact absurd h (by decide)

/-- No two kinds have the same name. -/
theorem name_injective {a b : Kind} (h : a.name = b.name) : a = b := by
  cases a <;> cases b <;> first | rfl | exact absurd h (by decide)

/-- The name of a kind is read as that kind. -/
theorem ofName?_name (k : Kind) : ofName? k.name = some k := by
  cases k <;> decide

/-- Nothing but the name of a kind is read as the kind. -/
theorem ofName?_eq_some {s : String} {k : Kind} (h : ofName? s = some k) : s = k.name := by
  have := List.find?_some h
  exact (beq_iff_eq.mp this).symm

end Kind

end BeliefGraph
