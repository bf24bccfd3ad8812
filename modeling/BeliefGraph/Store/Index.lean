import Std.Data.TreeMap
import Std.Data.TreeSet
import BeliefGraph.Atom

/-!
# Secondary indexes

An index files ids under keys. A key under which nothing is filed has no entry, so the size of an
index is bounded by what it holds. `Index.ids` is the view of an index: the ids under a key, upwards.
-/

namespace BeliefGraph

/-- Ids filed under keys. -/
abbrev Index (κ : Type) [Ord κ] := Std.TreeMap κ (Std.TreeSet Id)

namespace Index

variable {κ : Type} [Ord κ]

/-- The ids under a key, upwards and without repetition. -/
def ids (index : Index κ) (key : κ) : List Id :=
  match index[key]? with
  | some set => set.toList
  | none => []

def add (index : Index κ) (key : κ) (id : Id) : Index κ :=
  index.alter key fun set => some ((set.getD ∅).insert id)

/-- A set without an id, or nothing if it was the last one. -/
def withoutId (id : Id) (set : Std.TreeSet Id) : Option (Std.TreeSet Id) :=
  let rest := set.erase id
  if rest.isEmpty then none else some rest

def remove (index : Index κ) (key : κ) (id : Id) : Index κ :=
  index.alter key fun set => set.bind (withoutId id)

/-- Forgets all that is filed under a key. -/
def drop (index : Index κ) (key : κ) : Index κ :=
  index.erase key

end Index

/-- The kind and label of a labelled node. -/
structure LabelKey where
  kind : Kind
  label : String
  deriving DecidableEq, Repr

/-- By kind in the order of declaration, then by label. -/
def LabelKey.order : LabelKey → LabelKey → Ordering :=
  compareLex (compareOn fun k => k.kind.index) (compareOn fun k => k.label)

instance : Ord LabelKey := ⟨LabelKey.order⟩

instance : Std.TransOrd LabelKey :=
  inferInstanceAs (Std.TransCmp (compareLex _ _))

instance : Std.LawfulEqOrd LabelKey where
  compare_self := compareLex_eq_eq.mpr ⟨Std.ReflCmp.compare_self, Std.ReflCmp.compare_self⟩
  eq_of_compare {a b} h := by
    obtain ⟨h₁, h₂⟩ := compareLex_eq_eq.mp h
    have hk : a.kind = b.kind := Kind.index_injective (Std.LawfulEqCmp.eq_of_compare h₁)
    have hl : a.label = b.label := Std.LawfulEqCmp.eq_of_compare h₂
    cases a; cases b; simp_all

/-- The key of a labelled node. -/
def Atom.labelKey? (a : Atom) : Option LabelKey :=
  a.label.map fun label => ⟨a.kind, label⟩

end BeliefGraph
