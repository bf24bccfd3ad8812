import BeliefGraph.Atom

/-!
# Patterns

A pattern asks for a kind, a label and the exact list of references of an atom, each reference by a
pattern of its own; a wildcard accepts any atom. There are no variables, and nothing that is matched
at one reference constrains another.
-/

namespace BeliefGraph

structure Pattern where
  /-- The kind asked for; any kind if absent. -/
  kind : Option Kind
  /-- The label asked for; any label or none if absent. -/
  label : Option String
  /-- One pattern for each reference, in order. -/
  children : List Pattern
  /-- Accepts any atom; the other fields are ignored. -/
  wildcard : Bool

namespace Pattern

/-- Accepts every atom. -/
def any : Pattern := ⟨none, none, [], true⟩

instance : Inhabited Pattern := ⟨any⟩

/-- Accepts the atoms of a kind without references. -/
def ofKind (kind : Kind) : Pattern := ⟨some kind, none, [], false⟩

/-- Accepts the nodes of a kind with a label. -/
def node (kind : Kind) (label : String) : Pattern := ⟨some kind, some label, [], false⟩

/-- Accepts the links of a kind whose references match the children. -/
def link (kind : Kind) (children : List Pattern) : Pattern := ⟨some kind, none, children, false⟩

/-- The conditions that a pattern puts on the atom itself. -/
def admits (kind : Option Kind) (label : Option String) (a : Atom) : Bool :=
  kind.all (· == a.kind) && label.all fun l => a.label == some l

mutual

/-- Whether an atom matches, where `resolve` finds the atoms that are referenced. A reference that
does not resolve matches nothing. -/
def accepts (resolve : Id → Option Atom) : Pattern → Atom → Bool
  | ⟨kind, label, children, wildcard⟩, a =>
    wildcard || (admits kind label a && acceptsAll resolve children a.outgoing)

/-- Whether references match patterns one by one; there must be as many of one as of the other. -/
def acceptsAll (resolve : Id → Option Atom) : List Pattern → List Id → Bool
  | [], [] => true
  | p :: ps, id :: ids => (resolve id).any (accepts resolve p) && acceptsAll resolve ps ids
  | _, _ => false

end

mutual

/-- A wildcard is `*`. Otherwise the kind, or `?`, is followed by the label in parentheses and the
children in brackets, each where present. -/
def text : Pattern → String
  | ⟨kind, label, children, wildcard⟩ =>
    if wildcard then "*"
    else
      (match kind with | some k => k.name | none => "?") ++
        (match label with | some l => "(" ++ l ++ ")" | none => "") ++
        (if children.isEmpty then "" else "[" ++ String.intercalate ", " (texts children) ++ "]")

def texts : List Pattern → List String
  | [] => []
  | p :: ps => text p :: texts ps

end

end Pattern

end BeliefGraph
