import BeliefGraph.Digest.Blake3
import BeliefGraph.Json.Parser
import BeliefGraph.Json.Record
import BeliefGraph.Numeric.Integer
import BeliefGraph.Snapshot.Document
import BeliefGraph.Snapshot.Error
import BeliefGraph.Store.Index
import BeliefGraph.Text.Split

/-!
# Reading snapshots

The whole text is checked before anything is done with it, in this order: the trailer and its digest,
the header, each record line from the first to the last, and the number of records. The first offence
is reported, with its line where it has one.

The header and the lines of links are cut at runs of blanks. The lines of nodes are cut at single
spaces into ten pieces, since the label at the end may hold spaces.
-/

namespace BeliefGraph.Snapshot

/-! ## Fields -/

/-- The pieces of a line that have not been read yet. -/
abbrev Fields := List (List Char)

/-- Reads a field by its name. The reader gives the reason why a token is refused, if it has one. -/
def readToken {α : Type} (field : String) (read : List Char → Except (Option String) α)
    (token : List Char) : Except Fault α :=
  match read token with
  | .ok a => .ok a
  | .error reason => .error (.invalidField field (String.ofList token) reason)

/-- Reads the next field. -/
def nextField {α : Type} (field : String) (read : List Char → Except (Option String) α) :
    Fields → Except Fault (α × Fields)
  | [] => .error (.missingField field)
  | token :: rest => (readToken field read token).map fun a => (a, rest)

/-- A natural number below a bound. -/
def readNat (bound : Nat) (cs : List Char) : Except (Option String) Nat :=
  (Integer.readNat bound cs).mapError fun e => some e.message

/-- A natural number of 64 bits, such as an id. -/
def readWord (cs : List Char) : Except (Option String) Nat := readNat UInt64.size cs

def readCount (cs : List Char) : Except (Option String) UInt64 :=
  (readWord cs).map UInt64.ofNat

def readImportance (cs : List Char) : Except (Option String) Int32 :=
  match Integer.readInt 0x80000000 cs with
  | .ok n => .ok (Int32.ofInt n)
  | .error e => .error (some e.message)

def readSingle (cs : List Char) : Except (Option String) Float32 :=
  (Single.read cs).mapError fun e => some e.message

def readKind (cs : List Char) : Except (Option String) Kind :=
  let name := String.ofList cs
  match Kind.ofName? name with
  | some kind => .ok kind
  | none => .error (some (Kind.unknownMessage name))

/-- A reader of a form that gives no reasons. -/
def readForm {α : Type} (read : List Char → Option α) (cs : List Char) :
    Except (Option String) α :=
  match read cs with
  | some a => .ok a
  | none => .error none

/-- A label: a JSON string or `null`, with blanks around it. -/
def readLabel? (cs : List Char) : Option (Option String) :=
  (Json.parse? cs).bind (Json.nullable Json.string?)

/-! ## Lines -/

/-- The fields that the records of nodes and links share, without the tag. -/
def readCommon (shape : Shape) (fields : Fields) : Except Fault (Atom × Fields) := do
  let (id, fields) ← nextField "id" readWord fields
  let (kind, fields) ← nextField "kind" readKind fields
  let (strength, fields) ← nextField "strength" readSingle fields
  let (confidence, fields) ← nextField "confidence" readSingle fields
  let (count, fields) ← nextField "count" readCount fields
  let (sti, fields) ← nextField "sti" readImportance fields
  let (lti, fields) ← nextField "lti" readImportance fields
  let (vlti, fields) ← nextField "vlti" readImportance fields
  return (⟨id, kind, shape, ⟨strength, confidence, count⟩, ⟨sti, lti, vlti⟩⟩, fields)

/-- The record of a node. -/
def readNode (line : List Char) : Except Fault Atom := do
  let (a, fields) ← readCommon (.node none) (pieces 10 line).tail
  match fields with
  | [] => throw (.missingField "label")
  | label :: _ =>
    match readLabel? label with
    | some label => return { a with shape := .node label }
    | none => throw .invalidLabel

/-- The record of a link. -/
def readLink (line : List Char) : Except Fault Atom := do
  let (a, fields) ← readCommon (.link []) (words line).tail
  let (arity, fields) ← nextField "arity" readWord fields
  let outgoing ← fields.mapM (readToken "outgoing id" readWord)
  if outgoing.length = arity then return { a with shape := .link outgoing }
  else throw (.arityMismatch arity outgoing.length)

/-- The record lines from a line on. `seen` holds the ids of the records in front of them, and
`linksBegan` says whether a link is among those. -/
def readRecords : Nat → Bool → Std.TreeSet Id → List (List Char) →
    Except SnapshotError (List Atom)
  | _, _, _, [] => .ok []
  | number, linksBegan, seen, line :: rest =>
    let isNode := firstPiece line == nodeTag
    let isLink := firstPiece line == linkTag
    let read :=
      if isNode then if linksBegan then .error .nodeAfterLink else readNode line
      else if isLink then readLink line
      else .error .unknownRecord
    match read with
    | .error fault => .error (.malformed number fault)
    | .ok a =>
      if a.id ∈ seen then .error (.malformed number (.duplicateId a.id))
      else (readRecords (number + 1) (linksBegan || isLink) (seen.insert a.id) rest).map (a :: ·)

/-- The header line. -/
def readHeader (line : List Char) : Except SnapshotError Header :=
  let located {α : Type} (r : Except Fault α) := r.mapError (SnapshotError.malformed 1)
  match words line with
  | [] => .error (.malformed 1 .missingHeader)
  | tag :: fields =>
    if tag ≠ headerTag then .error (.malformed 1 .missingHeader)
    else do
      let (found, fields) ← located (nextField "version" (readNat UInt32.size) fields)
      if found ≠ version then throw (.unsupportedVersion found version)
      let (atomCount, fields) ← located (nextField "atom count" readWord fields)
      let (spaceId, fields) ← located (nextField "space id" (readForm SpaceId.read) fields)
      let (exportedAt, _) ← located (nextField "export time" (readForm Timestamp.read) fields)
      return ⟨found, atomCount, spaceId, exportedAt⟩

/-! ## Documents -/

/-- Text without the newlines at its end. -/
def withoutFinalNewlines (cs : List Char) : List Char :=
  (cs.reverse.dropWhile (· == '\n')).reverse

/-- The body of a text and what its trailer says. The trailer starts at the last line that starts with
its tag; the newline in front of it belongs to the body. -/
def splitTrailer? (cs : List Char) : Option (List Char × List Char) :=
  (splitAtLast? ('\n' :: trailerTag) cs).map fun (front, behind) =>
    (front ++ ['\n'], trimBlanks behind)

/-- Reads a document from a text. -/
def readText (cs : List Char) : Except SnapshotError Document :=
  let text := withoutFinalNewlines cs
  match splitTrailer? text with
  | none => .error (.malformed (max 1 (lines text).length) .missingTrailer)
  | some (body, stored) =>
    let computed := Blake3.digest (utf8 body)
    if stored ≠ computed then
      .error (.checksumMismatch (String.ofList stored) (String.ofList computed))
    else do
      let ls := lines body
      let header ← readHeader (ls.headD [])
      let records ← readRecords 2 false ∅ ls.tail
      if header.atomCount = records.length then return ⟨header, records⟩
      else throw (.countMismatch header.atomCount records.length)

/-- Reads a document from bytes, which must be UTF-8. -/
def read (bytes : ByteArray) : Except SnapshotError Document :=
  match String.fromUTF8? bytes with
  | some text => readText text.toList
  | none => .error (.io "stream did not contain valid UTF-8")

end BeliefGraph.Snapshot
