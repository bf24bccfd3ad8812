import BeliefGraph.Snapshot.Import
import BeliefGraph.Snapshot.Writer

/-!
# Directories of snapshots

A directory keeps snapshots as files under names, and a path says which. The steps of a path are parted by
slashes; an empty step and a single point stay where they are, and two points lead to the directory
above. A directory has no directories inside, so no path leads through a name. A path whose last step
stays asks for a directory and not for a file.

A snapshot is written to a draft beside its file first, and the draft then takes the file's name, so that
a file is always a whole snapshot. A path without a draft is refused before the store is looked at, and a
path that asks for a directory only afterwards.
-/

namespace BeliefGraph.Snapshot

/-! ## Names -/

/-- Whether a file can have a name: at most 255 bytes, none of them zero. -/
def isName (name : List Char) : Bool := (utf8 name).length ≤ 255 && !name.contains '\x00'

/-- A name up to its last point; all of it if no other point than the first character is in it. -/
def stem (name : List Char) : List Char :=
  match splitAtLast? ['.'] name with
  | some (c :: front, _) => c :: front
  | _ => name

/-- The name of a draft: the stem, `.tmp.` and a fresh id. -/
def draftName (name : List Char) (fresh : SpaceId) : List Char :=
  stem name ++ ".tmp.".toList ++ fresh.chars

/-! ## Paths -/

/-- What a path leads to. -/
inductive Place
  /-- A file of the directory. -/
  | inside (name : List Char)
  /-- A file of the directory above. -/
  | above (name : List Char)
  /-- A directory of that name. The directory that the path starts from goes without its name. -/
  | directory (name : List Char)
  deriving DecidableEq, Repr

/-- Whether a draft can be opened beside a place. A file with the stem `.` has none: its path without the
extension leads to the directory above. -/
def Place.hasDraft (fresh : SpaceId) : Place → Bool
  | .inside name => stem name != ['.'] && isName (draftName name fresh)
  | .above name => stem name != ['.'] && isName (draftName name fresh)
  | .directory name => isName (draftName name fresh)

/-- The steps of a path. -/
def steps : List Char → List (List Char)
  | [] => [[]]
  | c :: cs => if c = '/' then [] :: steps cs else extendFirst c (steps cs)

/-- Whether a step stays where it is. -/
def isStay (step : List Char) : Bool := step = [] || step = ['.']

/-- The step to the directory above. -/
def stepUp : List Char := ['.', '.']

/-- The place that a path leads to. Paths from the root, or to no more than the directory above, have
none. -/
def place? (path : List Char) : Option Place :=
  let place (name : List Char) (file : Place) : Option Place :=
    if name = stepUp then none
    else if (steps path).getLast?.any isStay then some (.directory name)
    else some file
  if path.head? = some '/' then none
  else
    match (steps path).filter fun step => !isStay step with
    | [] => some (.directory [])
    | [name] => place name (.inside name)
    | [first, name] => if first = stepUp then place name (.above name) else none
    | _ => none

/-! ## Files -/

structure Directory where
  files : Std.TreeMap (List Char) ByteArray
  /-- The files of the directory above. -/
  above : Std.TreeMap (List Char) ByteArray

namespace Directory

def empty : Directory := ⟨∅, ∅⟩

/-- The names of the files, in ascending order. -/
def names (d : Directory) : List (List Char) := d.files.keys

/-- The bytes of a file. -/
def find? (d : Directory) : Place → Option ByteArray
  | .inside name => d.files[name]?
  | .above name => d.above[name]?
  | .directory _ => none

/-- Puts a file in its place, over the one that was there. -/
def put? (d : Directory) (place : Place) (bytes : ByteArray) : Option Directory :=
  match place with
  | .inside name =>
    if isName name then some { d with files := d.files.insert name bytes } else none
  | .above name =>
    if isName name then some { d with above := d.above.insert name bytes } else none
  | .directory _ => none

/-- Writes a store to the file that a path leads to: the header, the text and the new directory. The
fresh id names the draft. -/
def save (d : Directory) (path : List Char) (fresh : SpaceId) (s : Store) (spaceId : SpaceId)
    (time : Timestamp) : Except SnapshotError (Header × List Char × Directory) :=
  match place? path with
  | none => .error (.io "no such directory")
  | some place =>
    if place.hasDraft fresh then
      match write s spaceId time with
      | .error e => .error e
      | .ok (header, text) =>
        match d.put? place (String.ofList text).toUTF8 with
        | some d => .ok (header, text, d)
        | none => .error (.io "not a file")
    else .error (.io "no name for a draft")

/-- Reads the file that a path leads to and makes its atoms in a store. -/
def load (d : Directory) (path : List Char) (s : Store) : Except SnapshotError Report × Store :=
  match (place? path).bind d.find? with
  | some bytes => importInto s bytes
  | none => (.error (.io "no such file"), s)

end Directory

end BeliefGraph.Snapshot
