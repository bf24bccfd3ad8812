import BeliefGraph.Json.Value

/-!
# Records in JSON

A record has named fields. It is written as an object, or as an array of the fields in order. In an
object the fields stand in any order, members of other names are passed over, and no field stands
twice; an array holds no more than the fields. A variant without data is written as its name, or as
an object with its name and null.
-/

namespace BeliefGraph.Json

/-- The fields that a value gives to a record. -/
structure Record where
  /-- Whether the fields stand in an array. -/
  positional : Bool
  fields : List (String × Json)

/-- Members with their names as text. -/
def namedMembers : List (List Nat × Json) → Option (List (String × Json))
  | [] => some []
  | (key, value) :: members => do
    let key ← textOfPoints key
    let members ← namedMembers members
    return (String.ofList key, value) :: members

/-- The members that have one of the names, unless two have the same. -/
def Record.ofMembers (names : List String) (members : List (String × Json)) : Option Record :=
  let known := members.filter fun m => names.contains m.1
  if (known.map Prod.fst).Nodup then some ⟨false, known⟩ else none

/-- The record with fields of the given names. -/
def record? (names : List String) : Json → Option Record
  | object members => (namedMembers members).bind (Record.ofMembers names)
  | array items =>
    if items.length ≤ names.length then some ⟨true, names.zip items⟩ else none
  | _ => none

namespace Record

variable {α : Type}

/-- A field that must be there. -/
def required (r : Record) (name : String) (decode : Json → Option α) : Option α :=
  (r.fields.lookup name).bind decode

/-- A field that may be null, and may be left out of an object. -/
def optional (r : Record) (name : String) (decode : Json → Option α) : Option (Option α) :=
  match r.fields.lookup name with
  | some null => some none
  | some value => (decode value).map some
  | none => if r.positional then none else some none

/-- A field with a default. -/
def orDefault (r : Record) (name : String) (fallback : α) (decode : Json → Option α) : Option α :=
  match r.fields.lookup name with
  | some value => decode value
  | none => some fallback

end Record

/-! ## Parts of records -/

def bool? : Json → Option Bool
  | bool b => some b
  | _ => none

/-- A whole number from `low` up to but not including `high`. -/
def intBetween? (low high : Int) : Json → Option Int
  | number n => n.integer?.filter fun i => decide (low ≤ i) && decide (i < high)
  | _ => none

/-- A natural number that fits into a word. -/
def word? (j : Json) : Option Nat :=
  (intBetween? 0 UInt64.size j).map Int.toNat

def single? : Json → Option Float32
  | number n => n.single?
  | _ => none

/-- A value, or nothing for null. -/
def nullable {α : Type} (decode : Json → Option α) : Json → Option (Option α)
  | null => some none
  | value => (decode value).map some

def list? {α : Type} (decode : Json → Option α) : Json → Option (List α)
  | array items => items.mapM decode
  | _ => none

/-- The name of a variant. -/
def variant? : Json → Option String
  | string points => (textOfPoints points).map String.ofList
  | object [(name, null)] => (textOfPoints name).map String.ofList
  | _ => none

end BeliefGraph.Json
