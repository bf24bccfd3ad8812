import BeliefGraph.Atom
import BeliefGraph.Snapshot.SpaceId
import BeliefGraph.Snapshot.Timestamp

/-!
# Snapshot documents

A document is a header and the records of some atoms, nodes in front of links. Each record is an atom
under the id that it had in the store it came from.
-/

namespace BeliefGraph.Snapshot

/-- The version of the format. -/
def version : Nat := 1

structure Header where
  version : Nat
  /-- The number of records. -/
  atomCount : Nat
  /-- The identity of the store. -/
  spaceId : SpaceId
  exportedAt : Timestamp
  deriving DecidableEq, Repr

structure Document where
  header : Header
  records : List Atom

/-- The word that starts the header line. -/
def headerTag : List Char := "ATOMSPACE".toList

def nodeTag : List Char := "NODE".toList

def linkTag : List Char := "LINK".toList

/-- What starts the trailer line. -/
def trailerTag : List Char := "END ".toList

/-- The bytes of a text in UTF-8. -/
def utf8 (cs : List Char) : List UInt8 := cs.flatMap String.utf8EncodeChar

end BeliefGraph.Snapshot
