import BeliefGraph.Store.Query

/-!
# Links as edges

Chaining walks along the chainable links that have exactly two references. Such a link is an edge from
its first reference to its second. What it states, the kind and the two ends, is compared without
regard to its id and truth.
-/

namespace BeliefGraph

/-- That a link of a kind leads from one id to another. -/
structure Statement where
  kind : Kind
  source : Id
  target : Id
  deriving DecidableEq, Repr

/-- By kind in the order of declaration, then by source, then by target. -/
def Statement.order : Statement → Statement → Ordering :=
  compareLex (compareOn fun e => e.kind.index)
    (compareLex (compareOn fun e => e.source) (compareOn fun e => e.target))

instance : Ord Statement := ⟨Statement.order⟩

instance : Std.TransOrd Statement :=
  inferInstanceAs (Std.TransCmp (compareLex _ (compareLex _ _)))

instance : Std.LawfulEqOrd Statement where
  compare_self := compareLex_eq_eq.mpr
    ⟨Std.ReflCmp.compare_self, compareLex_eq_eq.mpr
      ⟨Std.ReflCmp.compare_self, Std.ReflCmp.compare_self⟩⟩
  eq_of_compare {a b} h := by
    obtain ⟨hk, h⟩ := compareLex_eq_eq.mp h
    obtain ⟨hs, ht⟩ := compareLex_eq_eq.mp h
    have hk : a.kind = b.kind := Kind.index_injective (Std.LawfulEqCmp.eq_of_compare hk)
    have hs : a.source = b.source := Std.LawfulEqCmp.eq_of_compare hs
    have ht : a.target = b.target := Std.LawfulEqCmp.eq_of_compare ht
    cases a; cases b; simp_all

/-- A link that chaining walks along. -/
structure Edge where
  /-- The id of the link. -/
  link : Id
  statement : Statement
  truth : Truth
  deriving DecidableEq

namespace Edge

def source (e : Edge) : Id := e.statement.source

def target (e : Edge) : Id := e.statement.target

/-- The edge that an atom is, if it is one. -/
def ofAtom? (a : Atom) : Option Edge :=
  match a.kind.isChainable, a.outgoing with
  | true, [source, target] => some ⟨a.id, ⟨a.kind, source, target⟩, a.truth⟩
  | _, _ => none

/-- Whether an edge is the link `id` or has `id` at one of its ends. -/
def touches (e : Edge) (id : Id) : Bool :=
  e.link == id || e.source == id || e.target == id

end Edge

/-- The edges of a store in the order of their ids. -/
def Store.edges (s : Store) : List Edge :=
  s.atoms.filterMap Edge.ofAtom?

end BeliefGraph
