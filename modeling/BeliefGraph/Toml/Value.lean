/-!
# TOML values

A document is a table of named values. A table comes into being in one of four ways, and `Origin`
remembers which, because it decides what may still be added: `Table.putPair` for a key and its value,
`Table.openTable` and `Table.openItem` for headers. Each gives nothing if the format forbids it.
-/

namespace BeliefGraph.Toml

/-- How a table came into being. -/
inductive Origin
  /-- A header names a table below it. -/
  | implied
  /-- A dotted key leads through it. -/
  | dotted
  /-- A header names it. -/
  | header
  /-- It was written between braces. -/
  | inline
  deriving DecidableEq, Repr

mutual

inductive Value
  | string (text : String)
  | integer (value : Int)
  | float (value : Float)
  | boolean (value : Bool)
  /-- A date, a time or both. Only the form is checked, since no use is made of it. -/
  | moment
  | array (items : List Value)
  | table (table : Table)
  /-- Tables that headers in double brackets add to one by one. -/
  | tables (items : List Table)

/-- Entries in the order in which their keys first stand. -/
inductive Table
  | mk (origin : Origin) (entries : List (String × Value))

end

namespace Table

def origin : Table → Origin
  | mk origin _ => origin

def entries : Table → List (String × Value)
  | mk _ entries => entries

def empty (origin : Origin) : Table := mk origin []

instance : Inhabited Table := ⟨empty .header⟩

def get? (t : Table) (key : String) : Option Value := t.entries.lookup key

/-- Gives a value to a key, in the place of the one that it has. -/
def putEntry (key : String) (value : Value) : List (String × Value) → List (String × Value)
  | [] => [(key, value)]
  | entry :: entries =>
    if entry.1 = key then (key, value) :: entries else entry :: putEntry key value entries

def put (t : Table) (key : String) (value : Value) : Table :=
  mk t.origin (putEntry key value t.entries)

/-- Among the entries of a table, a key that was put has the value that was put under it. -/
theorem lookup_putEntry (key : String) (value : Value) (entries : List (String × Value)) :
    (putEntry key value entries).lookup key = some value := by
  induction entries with
  | nil => simp [putEntry]
  | cons entry entries ih =>
    by_cases h : entry.1 = key
    · simp [putEntry, h]
    · have h' : (key == entry.1) = false := by simpa using fun e => h e.symm
      rw [putEntry, if_neg h, List.lookup_cons, h']
      exact ih

/-- A value that was put into a table is found under its key. -/
theorem get?_put (t : Table) (key : String) (value : Value) :
    (t.put key value).get? key = some value := by
  simp [get?, put, entries, lookup_putEntry]

/-- Whether a path may lead through a table. Tables between braces are complete, and a dotted key does
not add to a table that has a header of its own. -/
def isOpen (dotted : Bool) (t : Table) : Bool :=
  match t.origin with
  | .inline => false
  | .header => !dotted
  | .implied | .dotted => true

/-- Changes the table at the end of a path. Tables that are missing on the way come into being, and
of several tables under one key the last is meant. -/
def update (dotted : Bool) (change : Table → Option Table) : List String → Table → Option Table
  | [], t => change t
  | key :: path, t =>
    match t.get? key with
    | none => do
      let child ← update dotted change path (empty (if dotted then .dotted else .implied))
      return t.put key (.table child)
    | some (.table child) =>
      if child.isOpen dotted then do
        let child ← update dotted change path child
        return t.put key (.table child)
      else none
    | some (.tables items) => do
      let last ← items.getLast?
      let last ← update dotted change path last
      return t.put key (.tables (items.dropLast ++ [last]))
    | some _ => none

/-- Adds a value under the last key of a path. A table that dotted keys made gets all its entries by
dotted keys, any other table none of them. -/
def putPair (path : List String) (key : String) (value : Value) (t : Table) : Option Table :=
  t.update true (fun t =>
    if (t.origin == .dotted) == path.isEmpty then none
    else if (t.get? key).isSome then none
    else some (t.put key value)) path

/-- Begins the table that a header names: a new one, or one that until now was only implied. -/
def openTable (path : List String) (key : String) (t : Table) : Option Table :=
  t.update false (fun t =>
    match t.get? key with
    | none => some (t.put key (.table (empty .header)))
    | some (.table child) =>
      if child.origin = .implied then some (t.put key (.table (mk .header child.entries))) else none
    | some _ => none) path

/-- Begins one more of the tables that a header in double brackets names. -/
def openItem (path : List String) (key : String) (t : Table) : Option Table :=
  t.update false (fun t =>
    match t.get? key with
    | none => some (t.put key (.tables [empty .header]))
    | some (.tables items) => some (t.put key (.tables (items ++ [empty .header])))
    | some _ => none) path

end Table

end BeliefGraph.Toml
