import BeliefGraph.Kind
import BeliefGraph.Truth
import BeliefGraph.Attention

/-!
# Atoms

An atom is a node, which may have a label, or a link, which lists references to other atoms. Which of
the two it is depends on how it was made and not on its kind. Its id, kind and shape never change;
its truth and attention do.
-/

namespace BeliefGraph

/-- Ids are handed out upwards from one, and none is used twice. -/
abbrev Id := Nat

/-- The structure of an atom. The references of a link are ordered, may repeat, and may name ids that
no atom has. -/
inductive Shape
  | node (label : Option String)
  | link (outgoing : List Id)
  deriving DecidableEq, Repr, Inhabited

structure Atom where
  id : Id
  kind : Kind
  shape : Shape
  truth : Truth
  attention : Attention
  deriving DecidableEq, Inhabited

namespace Shape

def label : Shape → Option String
  | node label => label
  | link _ => none

def outgoing : Shape → List Id
  | node _ => []
  | link outgoing => outgoing

def isNode : Shape → Bool
  | node _ => true
  | link _ => false

end Shape

namespace Atom

/-- A new atom: nothing is known of it and no one attends to it. -/
def new (id : Id) (kind : Kind) (shape : Shape) : Atom :=
  ⟨id, kind, shape, Truth.unknown, Attention.none⟩

/-- The label of a node; a link has none. -/
def label (a : Atom) : Option String := a.shape.label

/-- The references of a link; a node has none. -/
def outgoing (a : Atom) : List Id := a.shape.outgoing

def isNode (a : Atom) : Bool := a.shape.isNode

def isLink (a : Atom) : Bool := !a.isNode

def arity (a : Atom) : Nat := a.outgoing.length

def references (a : Atom) (id : Id) : Bool := a.outgoing.contains id

def sti (a : Atom) : Int32 := a.attention.sti

/-- The same atom with another short-term importance. -/
def withSti (a : Atom) (sti : Int32) : Atom :=
  { a with attention := { a.attention with sti } }

/-- A node as `Kind#id(label)`, a link as `Kind#id[ids]`. -/
def text (a : Atom) : String :=
  a.kind.name ++ "#" ++ a.id.repr ++
    match a.shape with
    | .node label => "(" ++ label.getD "" ++ ")"
    | .link outgoing => "[" ++ String.intercalate ", " (outgoing.map Nat.repr) ++ "]"

variable {a : Atom} {label : Option String} {outgoing : List Id}

/-- An atom with the shape of a node is a node. -/
theorem isNode_of_shape (h : a.shape = .node label) : a.isNode = true := by
  rw [isNode, h, Shape.isNode]

/-- An atom with the shape of a link is a link. -/
theorem isLink_of_shape (h : a.shape = .link outgoing) : a.isLink = true := by
  rw [isLink, isNode, h, Shape.isNode, Bool.not_false]

/-- What is no node is a link: there are two shapes. -/
theorem isLink_of_not_isNode (h : a.isNode = false) : a.isLink = true := by
  rw [isLink, h, Bool.not_false]

/-- A node is no link. -/
theorem not_isLink_of_isNode (h : a.isNode = true) : ¬ a.isLink = true := by
  rw [isLink, h, Bool.not_true]
  exact Bool.false_ne_true

/-- A node has a label, which may be absent. -/
theorem exists_label (h : a.isNode = true) : ∃ label, a.shape = .node label := by
  cases hshape : a.shape with
  | node label => exact ⟨label, rfl⟩
  | link outgoing => exact absurd (isLink_of_shape hshape) (not_isLink_of_isNode h)

/-- A node references nothing. -/
theorem outgoing_of_isNode (h : a.isNode = true) : a.outgoing = [] := by
  obtain ⟨label, hshape⟩ := exists_label h
  rw [outgoing, hshape, Shape.outgoing]

/-- The shape of a link is determined by what it references. -/
theorem shape_of_isLink (h : a.isLink = true) : a.shape = .link a.outgoing := by
  cases hshape : a.shape with
  | node label => exact absurd h (not_isLink_of_isNode (isNode_of_shape hshape))
  | link outgoing => rw [Atom.outgoing, hshape, Shape.outgoing]

end Atom

end BeliefGraph
