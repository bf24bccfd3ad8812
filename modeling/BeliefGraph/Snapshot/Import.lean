import BeliefGraph.Snapshot.Order
import BeliefGraph.Snapshot.Reader
import BeliefGraph.Store.Basic

/-!
# Importing snapshots

The atoms of a document are made again in a store under new ids: the nodes in the order of the
document, then the links in an order in which each comes after those it references. References are
carried over to the new ids. A reference to an id without a record is carried over to an id that is
reserved for it, the same for all references to it, and stays dangling.

A document that is refused leaves the store as it was. A store that is full keeps the atoms that it
took.
-/

namespace BeliefGraph.Snapshot

/-- What an import did. -/
structure Report where
  header : Header
  /-- The new id of every record. -/
  remap : Std.TreeMap Id Id
  nodes : Nat
  links : Nat
  /-- The number of ids that are referenced and have no record. -/
  dangling : Nat

/-- An import under way. -/
structure Transfer where
  store : Store
  /-- The new id of everything met so far. -/
  remap : Std.TreeMap Id Id
  dangling : Nat

namespace Transfer

/-- Makes an atom with the kind, truth and attention of a record. -/
def add (t : Transfer) (record : Atom) (shape : Shape) : Except SnapshotError Transfer :=
  match t.store.create record.kind shape with
  | .error e => .error (.store e)
  | .ok (a, store) => .ok { t with
      store := store.modify a.id (fun _ => record.truth) fun _ => record.attention
      remap := t.remap.insert record.id a.id }

/-- Makes the nodes; stops with the first that the store refuses. -/
def addNodes : Transfer → List Atom → Except SnapshotError Unit × Transfer
  | t, [] => (.ok (), t)
  | t, record :: rest =>
    match t.add record record.shape with
    | .error e => (.error e, t)
    | .ok t => t.addNodes rest

/-- Reserves an id for a reference to something without a record. -/
def reserve (t : Transfer) (id : Id) : Transfer :=
  let (reserved, store) := t.store.reserve
  ⟨store, t.remap.insert id reserved, t.dangling + 1⟩

/-- The new id of a reference. -/
def target? (t : Transfer) (id : Id) : Option Id := t.remap[id]?

/-- Makes sure that every reference of a link has a new id. One to a record that has not been made yet
is part of a cycle. -/
def resolveTargets (known : Std.TreeSet Id) (link : Id) :
    Transfer → List Id → Except SnapshotError Unit × Transfer
  | t, [] => (.ok (), t)
  | t, id :: ids =>
    if (t.target? id).isSome then resolveTargets known link t ids
    else if id ∈ known then (.error (.cyclicReference link), t)
    else resolveTargets known link (t.reserve id) ids

/-- Makes the links; stops with the first that cannot be made. -/
def addLinks (known : Std.TreeSet Id) :
    Transfer → List Atom → Except SnapshotError Unit × Transfer
  | t, [] => (.ok (), t)
  | t, record :: rest =>
    match resolveTargets known record.id t record.outgoing with
    | (.error e, t) => (.error e, t)
    | (.ok (), t) =>
      match t.add record (.link (record.outgoing.filterMap t.target?)) with
      | .error e => (.error e, t)
      | .ok t => t.addLinks known rest

end Transfer

/-- Makes the atoms of a document in a store. -/
def recreate (s : Store) (d : Document) : Except SnapshotError Report × Store :=
  let nodes := d.records.filter Atom.isNode
  let links := d.records.filter Atom.isLink
  match creationOrder links with
  | .error id => (.error (.cyclicReference id), s)
  | .ok ordered =>
    let known := Std.TreeSet.ofList (d.records.map Atom.id)
    match Transfer.addNodes ⟨s, ∅, 0⟩ nodes with
    | (.error e, t) => (.error e, t.store)
    | (.ok (), t) =>
      match t.addLinks known ordered with
      | (.error e, t) => (.error e, t.store)
      | (.ok (), t) =>
        let remap := t.remap.filter fun old _ => known.contains old
        (.ok ⟨d.header, remap, nodes.length, links.length, t.dangling⟩, t.store)

/-- Reads bytes and makes their atoms in a store. -/
def importInto (s : Store) (bytes : ByteArray) : Except SnapshotError Report × Store :=
  match read bytes with
  | .error e => (.error e, s)
  | .ok d => recreate s d

end BeliefGraph.Snapshot
