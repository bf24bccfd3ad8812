import BeliefGraph.Numeric.Single
import BeliefGraph.Toml.Value

/-!
# Sections of TOML documents

A section gives values to named fields: as a table by name, as an array by position. Fields that it
does not give keep their defaults, and what it gives beyond the fields is passed over.
-/

namespace BeliefGraph.Toml.Value

/-- The values that a section gives to fields of some names. A date or time is a section that gives
none. -/
def fields? (names : List String) : Value → Option (List (String × Value))
  | table t => some t.entries
  | tables items => some (names.zip (items.map table))
  | array items => some (names.zip items)
  | moment => some []
  | _ => none

/-- A field of a section, or its default. -/
def orDefault {α : Type} (fields : List (String × Value)) (name : String) (fallback : α)
    (decode : Value → Option α) : Option α :=
  match fields.lookup name with
  | some value => decode value
  | none => some fallback

/-- A key that is not given has its default. -/
theorem orDefault_nil {α : Type} (name : String) (fallback : α) (decode : Value → Option α) :
    orDefault [] name fallback decode = some fallback := rfl

/-! ## Fields -/

def integer? : Value → Option Int
  | integer n => some n
  | _ => none

def natural? (v : Value) : Option Nat :=
  v.integer?.bind fun n => if 0 ≤ n then some n.toNat else none

/-- A number of either form, rounded to single precision. -/
def single? : Value → Option Float32
  | integer n => some (Single.ofInt n)
  | float x => some (Single.ofDouble x)
  | _ => none

/-- Whether a value is a table or an array without content. -/
def isEmpty : Value → Bool
  | table t => t.entries.isEmpty
  | tables items => items.isEmpty
  | array items => items.isEmpty
  | _ => false

/-- The name of a variant: a string, or the one key of a table whose value has no content. -/
def variant? : Value → Option String
  | string name => some name
  | table t =>
    match t.entries with
    | [(name, value)] => if value.isEmpty then some name else none
    | _ => none
  | _ => none

end BeliefGraph.Toml.Value
