import BeliefGraph.Store.Error
import BeliefGraph.Store.Index

/-!
# The store of atoms

A store hands out ids upwards from one and keeps atoms under them. An id is handed out once: deleting
an atom leaves the references to it in place, and from then on they resolve to nothing. Two indexes
are kept beside the atoms: labelled nodes under kind and label, and links under each id that they
reference. A store with a limit refuses a new atom when it is full; an operation that fails leaves
the store as it was.

Ids are natural numbers here, so they never run out. A counter of 64 bits does after 2 ^ 64 - 1 ids, and
then both `Store.create` and `Store.reserve` are refused as by a full store; this refusal is left out.
What is said of texts, in which an id has to fit into 64 bits, is said of stores whose ids do.

The view of a store is `Store.get?`, and `Store.atoms` lists the live atoms in the order in which
they were made.
-/

namespace BeliefGraph

structure Store where
  /-- The most atoms that may be live at one time; any number if absent. -/
  limit : Option Nat
  /-- The id that is handed out next. -/
  nextId : Id
  byId : Std.TreeMap Id Atom
  /-- The labelled nodes. -/
  labelled : Index LabelKey
  /-- The links under the ids that they reference. -/
  referrers : Index Id

namespace Store

/-- A store without atoms. -/
def empty (limit : Option Nat) : Store := ⟨limit, 1, ∅, ∅, ∅⟩

instance : Inhabited Store := ⟨empty none⟩

/-! ## Reading -/

/-- The live atom with an id. -/
def get? (s : Store) (id : Id) : Option Atom := s.byId[id]?

/-- The live atom with an id, or the reason why there is none. -/
def get (s : Store) (id : Id) : Except StoreError Atom :=
  match s.get? id with
  | some a => .ok a
  | none => .error (.notFound id)

def contains (s : Store) (id : Id) : Bool := (s.get? id).isSome

/-- The live atoms in the order of their ids, which is the order in which they were made. -/
def atoms (s : Store) : List Atom := s.byId.toList.map Prod.snd

/-- The number of live atoms. -/
def size (s : Store) : Nat := s.byId.size

def isEmpty (s : Store) : Bool := s.size == 0

/-- Whether one more atom may be made. -/
def hasRoom (s : Store) : Bool :=
  s.limit.all fun limit => decide (s.size < limit)

/-! ## Making and deleting atoms -/

/-- Files an atom in the indexes. -/
def file (s : Store) (a : Atom) : Store :=
  { s with
    labelled := match a.labelKey? with
      | some key => s.labelled.add key a.id
      | none => s.labelled
    referrers := a.outgoing.foldl (fun index target => index.add target a.id) s.referrers }

/-- Takes an atom out of the indexes, and with it what was filed under its id: the links that
reference it no longer count as its referrers. -/
def unfile (s : Store) (a : Atom) : Store :=
  { s with
    labelled := match a.labelKey? with
      | some key => s.labelled.remove key a.id
      | none => s.labelled
    referrers :=
      (a.outgoing.foldl (fun index target => index.remove target a.id) s.referrers).drop a.id }

/-- Puts a new atom into a store that has room for it. -/
def place (s : Store) (kind : Kind) (shape : Shape) : Store :=
  let a := Atom.new s.nextId kind shape
  { s.file a with nextId := s.nextId + 1, byId := s.byId.insert a.id a }

/-- Makes an atom under the next id. There is always a next id: that a counter of 64 bits comes to its
end is left out. -/
def create (s : Store) (kind : Kind) (shape : Shape) : Except StoreError (Atom × Store) :=
  match s.limit with
  | none => .ok (Atom.new s.nextId kind shape, s.place kind shape)
  | some limit =>
    if s.size < limit then .ok (Atom.new s.nextId kind shape, s.place kind shape)
    else .error (.exhausted limit)

/-- The ids of a link are not checked, so a link may be made before what it references. -/
def createLink (s : Store) (kind : Kind) (outgoing : List Id) : Except StoreError (Atom × Store) :=
  s.create kind (.link outgoing)

def createNode (s : Store) (kind : Kind) (label : Option String) :
    Except StoreError (Atom × Store) :=
  s.create kind (.node label)

def delete (s : Store) (id : Id) : Except StoreError Store :=
  match s.get? id with
  | some a => .ok { s.unfile a with byId := s.byId.erase id }
  | none => .error (.notFound id)

/-- Hands out an id that no atom will ever have. This cannot fail, as there is always a next id. -/
def reserve (s : Store) : Id × Store := (s.nextId, { s with nextId := s.nextId + 1 })

/-! ## Truth and attention -/

/-- Changes the truth and attention of an atom; an id without an atom changes nothing. -/
def modify (s : Store) (id : Id) (f : Truth → Truth) (g : Attention → Attention) : Store :=
  { s with byId := s.byId.modify id fun a =>
    { a with truth := f a.truth, attention := g a.attention } }

/-- Replaces the truth of a live atom by a function of it, and gives the new truth. -/
def updateTruth (s : Store) (id : Id) (f : Truth → Truth) : Except StoreError (Truth × Store) :=
  match s.get? id with
  | some a => .ok (f a.truth, s.modify id f fun x => x)
  | none => .error (.notFound id)

/-- Replaces the attention of a live atom by a function of it, and gives the new attention. -/
def updateAttention (s : Store) (id : Id) (g : Attention → Attention) :
    Except StoreError (Attention × Store) :=
  match s.get? id with
  | some a => .ok (g a.attention, s.modify id (fun x => x) g)
  | none => .error (.notFound id)

def setTruth (s : Store) (id : Id) (truth : Truth) : Except StoreError Store :=
  (s.updateTruth id fun _ => truth).map Prod.snd

def setAttention (s : Store) (id : Id) (attention : Attention) : Except StoreError Store :=
  (s.updateAttention id fun _ => attention).map Prod.snd

/-- Merges evidence into the truth of an atom, and gives the revised truth. -/
def reviseTruth (s : Store) (id : Id) (evidence : Truth) : Except StoreError (Truth × Store) :=
  s.updateTruth id fun current => current.revision evidence

/-- Adds to the short-term importance of an atom, and gives the new one. -/
def addSti (s : Store) (id : Id) (delta : Int32) : Except StoreError (Int32 × Store) :=
  (s.updateAttention id fun a => { a with sti := addImportance a.sti delta }).map
    fun (a, s) => (a.sti, s)

end Store

end BeliefGraph
