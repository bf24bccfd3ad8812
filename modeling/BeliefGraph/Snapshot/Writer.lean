import BeliefGraph.Digest.Blake3
import BeliefGraph.Json.Value
import BeliefGraph.Snapshot.Document
import BeliefGraph.Snapshot.Error
import BeliefGraph.Snapshot.Order
import BeliefGraph.Store.Query

/-!
# Writing snapshots

A snapshot is a text of lines. The header line is followed by a line for each node and then a line for
each link, in the order of their ids, and by a trailer with the digest of all bytes in front of it.

    ATOMSPACE version count space-id time
    NODE id kind strength confidence count sti lti vlti label
    LINK id kind strength confidence count sti lti vlti arity id ...
    END digest

A store whose links reference each other in a cycle cannot be made again from a snapshot, so none is
written.
-/

namespace BeliefGraph.Snapshot

/-- Fields with single spaces between them. -/
def joinFields : List (List Char) → List Char
  | [] => []
  | [field] => field
  | field :: fields => field ++ ' ' :: joinFields fields

/-- A natural number as a field. -/
def natField (n : Nat) : List Char := Nat.toDigits 10 n

/-- An integer as a field. -/
def intField (n : Int) : List Char :=
  match n with
  | .ofNat n => natField n
  | .negSucc n => '-' :: natField (n + 1)

/-- The fields that the records of nodes and links share. -/
def commonFields (tag : List Char) (a : Atom) : List (List Char) :=
  [tag, natField a.id, a.kind.name.toList, Single.chars a.truth.strength,
    Single.chars a.truth.confidence, natField a.truth.count.toNat, intField a.attention.sti.toInt,
    intField a.attention.lti.toInt, intField a.attention.vlti.toInt]

/-- The label of a node as a field: a JSON string, or `null` where there is none. -/
def labelField : Option String → List Char
  | some label => Json.quote label.toList
  | none => "null".toList

/-- The record of an atom. -/
def recordLine (a : Atom) : List Char :=
  match a.shape with
  | .node label => joinFields (commonFields nodeTag a ++ [labelField label])
  | .link outgoing =>
    joinFields (commonFields linkTag a ++ natField outgoing.length :: outgoing.map natField)

def headerLine (h : Header) : List Char :=
  joinFields [headerTag, natField h.version, natField h.atomCount, h.spaceId.chars,
    h.exportedAt.chars]

/-- Lines, each with a newline at its end. -/
def unlines (ls : List (List Char)) : List Char :=
  ls.flatMap (· ++ ['\n'])

/-- All of a document that the digest covers. -/
def Document.body (d : Document) : List Char :=
  unlines (headerLine d.header :: d.records.map recordLine)

/-- The trailer of a text. -/
def trailer (body : List Char) : List Char :=
  trailerTag ++ Blake3.digest (utf8 body) ++ ['\n']

def Document.chars (d : Document) : List Char :=
  d.body ++ trailer d.body

/-- The document of a store, as of a time. -/
def documentOf (s : Store) (spaceId : SpaceId) (time : Timestamp) : Document where
  header := ⟨version, s.size, spaceId, time⟩
  records := s.query Atom.isNode ++ s.query Atom.isLink

/-! ## Sending -/

/-- The course of sending a text: the characters that went out, and what it came to. What went out before
a failure stays out. The channel takes all that it is given. -/
structure Transmission (α : Type) where
  sent : List Char
  outcome : Except SnapshotError α

namespace Transmission

instance : Monad Transmission where
  pure a := ⟨[], .ok a⟩
  bind x f :=
    match x.outcome with
    | .ok a =>
      let y := f a
      ⟨x.sent ++ y.sent, y.outcome⟩
    | .error e => ⟨x.sent, .error e⟩

/-- Sends some characters. -/
def send (cs : List Char) : Transmission Unit := ⟨cs, .ok ()⟩

/-- Goes on with the value of a computation, or fails with its error; either way nothing is sent. -/
def attempt {α : Type} (outcome : Except SnapshotError α) : Transmission α := ⟨[], outcome⟩

/-- Sends some lines, one after the other. -/
def sendLines (ls : List (List Char)) : Transmission Unit :=
  ls.forM fun line => send (line ++ ['\n'])

/-- The bytes that went out. -/
def bytes {α : Type} (t : Transmission α) : List UInt8 := utf8 t.sent

/-- A step that succeeds is followed by the rest, whose characters go out behind its own. -/
theorem bind_of_ok {α β : Type} {cs : List Char} {a : α} {f : α → Transmission β} :
    (⟨cs, .ok a⟩ : Transmission α) >>= f = ⟨cs ++ (f a).sent, (f a).outcome⟩ := rfl

/-- After a failure nothing more is sent. -/
theorem bind_of_error {α β : Type} {cs : List Char} {e : SnapshotError} {f : α → Transmission β} :
    (⟨cs, .error e⟩ : Transmission α) >>= f = ⟨cs, .error e⟩ := rfl

/-- Lines that are sent go out as they are joined. -/
theorem sendLines_eq (ls : List (List Char)) : sendLines ls = ⟨unlines ls, .ok ()⟩ := by
  induction ls with
  | nil => rfl
  | cons line ls ih =>
    have hcons : sendLines (line :: ls) = send (line ++ ['\n']) >>= fun _ => sendLines ls := rfl
    rw [hcons, ih, send, bind_of_ok, unlines, unlines, List.flatMap_cons]

end Transmission

open Transmission in
/-- Sends a store. That its links can be made again is checked before the first line goes out, and the
digest is taken of the lines that did. -/
def transmit (s : Store) (spaceId : SpaceId) (time : Timestamp) : Transmission Header := do
  let _ ← attempt ((creationOrder (s.query Atom.isLink)).mapError .cyclicReference)
  let d := documentOf s spaceId time
  let lines := sendLines (headerLine d.header :: d.records.map recordLine)
  lines
  send (trailer lines.sent)
  return d.header

/-- Writes a store: the header and the text. -/
def write (s : Store) (spaceId : SpaceId) (time : Timestamp) :
    Except SnapshotError (Header × List Char) :=
  let t := transmit s spaceId time
  t.outcome.map fun header => (header, t.sent)

/-- A store whose links have no order is refused, and by then nothing has been sent. -/
theorem transmit_of_error {s : Store} {id : Id} (h : creationOrder (s.query Atom.isLink) = .error id)
    (spaceId : SpaceId) (time : Timestamp) :
    transmit s spaceId time = ⟨[], .error (.cyclicReference id)⟩ := by
  rw [transmit, h]
  exact Transmission.bind_of_error

/-- A store whose links have an order is sent as its document. -/
theorem transmit_of_ok {s : Store} {ordered : List Atom}
    (h : creationOrder (s.query Atom.isLink) = .ok ordered) (spaceId : SpaceId) (time : Timestamp) :
    transmit s spaceId time
      = ⟨(documentOf s spaceId time).chars, .ok (documentOf s spaceId time).header⟩ := by
  have hsent : transmit s spaceId time
      = ⟨(documentOf s spaceId time).body ++ (trailer (documentOf s spaceId time).body ++ []),
        .ok (documentOf s spaceId time).header⟩ := by
    rw [transmit, h]
    simp only [Transmission.sendLines_eq]
    rfl
  rw [hsent, List.append_nil, Document.chars]

/-- What a store is written as, by the order of its links. -/
theorem write_eq (s : Store) (spaceId : SpaceId) (time : Timestamp) :
    write s spaceId time
      = match creationOrder (s.query Atom.isLink) with
        | .error id => .error (.cyclicReference id)
        | .ok _ => .ok ((documentOf s spaceId time).header, (documentOf s spaceId time).chars) := by
  rw [write]
  cases h : creationOrder (s.query Atom.isLink) with
  | error id =>
    rw [transmit_of_error h]
    rfl
  | ok ordered =>
    rw [transmit_of_ok h]
    rfl

end BeliefGraph.Snapshot
