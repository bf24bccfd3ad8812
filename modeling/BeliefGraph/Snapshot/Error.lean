import BeliefGraph.Store.Error

/-!
# What can be wrong with a snapshot

A snapshot that cannot be read, or cannot be written, is refused for one of these causes. A fault is a
cause that belongs to one line of the text.
-/

namespace BeliefGraph

/-- What is wrong with a line. -/
inductive Fault
  | missingTrailer
  | missingHeader
  | missingField (field : String)
  /-- A field that does not read; the reason is absent for fields of a foreign form. -/
  | invalidField (field token : String) (reason : Option String)
  | invalidLabel
  /-- A link whose declared arity is not the number of its references. -/
  | arityMismatch (arity actual : Nat)
  | nodeAfterLink
  /-- A line that is no record. -/
  | unknownRecord
  | duplicateId (id : Id)
  /-- Any other fault. -/
  | other (reason : String)
  deriving DecidableEq, Repr

def Fault.message : Fault → String
  | .missingTrailer => "missing END trailer"
  | .missingHeader => "missing ATOMSPACE header"
  | .missingField field => "missing " ++ field
  | .invalidField field token reason =>
    "invalid " ++ field ++ " '" ++ token ++ "'" ++
      match reason with
      | some reason => ": " ++ reason
      | none => ""
  | .invalidLabel => "invalid label"
  | .arityMismatch arity actual =>
    "arity " ++ arity.repr ++ " but " ++ actual.repr ++ " outgoing ids"
  | .nodeAfterLink => "node record after link records"
  | .unknownRecord => "expected NODE or LINK record"
  | .duplicateId id => "duplicate atom id " ++ id.repr
  | .other reason => reason

inductive SnapshotError
  /-- The bytes could not be read or written. -/
  | io (reason : String)
  /-- A line, counted from one, has a fault. -/
  | malformed (line : Nat) (fault : Fault)
  | unsupportedVersion (found expected : Nat)
  | checksumMismatch (stored computed : String)
  | countMismatch (declared actual : Nat)
  /-- Some links reference each other in a cycle; the link with the id is the first that waits for
  one of them. -/
  | cyclicReference (id : Id)
  /-- The store that atoms were read into refused one. -/
  | store (error : StoreError)
  deriving DecidableEq, Repr

def SnapshotError.message : SnapshotError → String
  | .io reason => "Snapshot I/O error: " ++ reason
  | .malformed line fault => "Malformed snapshot at line " ++ line.repr ++ ": " ++ fault.message
  | .unsupportedVersion found expected =>
    "Unsupported snapshot version " ++ found.repr ++ " (expected " ++ expected.repr ++ ")"
  | .checksumMismatch stored computed =>
    "Snapshot checksum mismatch: stored=" ++ stored ++ " computed=" ++ computed
  | .countMismatch declared actual =>
    "Snapshot declares " ++ declared.repr ++ " atoms but contains " ++ actual.repr
  | .cyclicReference id => "Snapshot links form a reference cycle involving " ++ id.repr
  | .store error => "Snapshot storage error: " ++ error.message

end BeliefGraph
