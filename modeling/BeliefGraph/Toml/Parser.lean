import BeliefGraph.Toml.Moment
import BeliefGraph.Toml.Number
import BeliefGraph.Toml.Text

/-!
# Reading TOML

A document is read line by line into a table. Each function takes the characters that are left and
gives back those that it did not use. Keys, values and lines count down from a number that is no less
than twice the length of the text; apart from that, paths and nesting have the limit `maxDepth`.
-/

namespace BeliefGraph.Toml

/-- Paths are shorter than this, and values stand inside fewer brackets and braces. -/
def maxDepth : Nat := 80

/-! ## Keys -/

/-- Characters of a key without quotes. -/
def isBare (c : Char) : Bool := c.isAlphanum || c = '_' || c = '-'

/-- One part of a key. -/
def scanName : List Char → Option (String × List Char)
  | '"' :: rest => (scanBasic (rest.length + 1) rest).map fun (name, rest) =>
      (String.ofList name, rest)
  | '\'' :: rest => (scanLiteral rest).map fun (name, rest) => (String.ofList name, rest)
  | cs =>
    let name := cs.takeWhile isBare
    if name.isEmpty then none else some (String.ofList name, cs.dropWhile isBare)

/-- The parts of a key, with points between them and blanks around each. -/
def scanNames : Nat → List Char → Option (List String × List Char)
  | 0, _ => none
  | fuel + 1, cs =>
    (scanName (skipBlanks cs)).bind fun (name, rest) =>
      match skipBlanks rest with
      | '.' :: rest => (scanNames fuel rest).map fun (names, rest) => (name :: names, rest)
      | rest => some ([name], rest)

/-- A key: where it leads, and its last part. -/
structure Key where
  path : List String
  last : String

def scanKey (cs : List Char) : Option (Key × List Char) :=
  (scanNames (cs.length + 1) cs).bind fun (names, rest) =>
    if names.length < maxDepth then names.getLast?.map fun last => (⟨names.dropLast, last⟩, rest)
    else none

/-! ## Values -/

mutual

/-- A value inside `depth` brackets and braces. -/
def scanValue : Nat → Nat → List Char → Option (Value × List Char)
  | 0, _, _ => none
  | fuel + 1, depth, cs =>
    match cs with
    | '"' :: _ | '\'' :: _ =>
      (scanString cs).map fun (text, rest) => (.string (String.ofList text), rest)
    | '[' :: rest =>
      if depth + 1 < maxDepth then
        (scanItems fuel (depth + 1) rest).map fun (items, rest) => (.array items, rest)
      else none
    | '{' :: rest =>
      if depth + 1 < maxDepth then
        match skipBlanks rest with
        | '}' :: rest => some (.table (Table.empty .inline), rest)
        | rest =>
          (scanPairs fuel (depth + 1) (Table.empty .inline) rest).map fun (t, rest) =>
            (.table t, rest)
      else none
    | 't' :: 'r' :: 'u' :: 'e' :: rest => some (.boolean true, rest)
    | 'f' :: 'a' :: 'l' :: 's' :: 'e' :: rest => some (.boolean false, rest)
    | _ =>
      match scanMoment cs with
      | some rest => some (.moment, rest)
      | none => scanNumber cs

/-- Items up to the closing bracket. A comma may stand behind the last. -/
def scanItems : Nat → Nat → List Char → Option (List Value × List Char)
  | 0, _, _ => none
  | fuel + 1, depth, cs =>
    match skipSpace cs with
    | ']' :: rest => some ([], rest)
    | rest =>
      (scanValue fuel depth rest).bind fun (item, rest) =>
        match skipSpace rest with
        | ']' :: rest => some ([item], rest)
        | ',' :: rest =>
          (scanItems fuel depth rest).map fun (items, rest) => (item :: items, rest)
        | _ => none

/-- Adds one or more keys with their values to a table, up to the closing brace. -/
def scanPairs : Nat → Nat → Table → List Char → Option (Table × List Char)
  | 0, _, _, _ => none
  | fuel + 1, depth, t, cs =>
    (scanKey cs).bind fun (key, rest) =>
      match rest with
      | '=' :: rest =>
        (scanValue fuel depth (skipBlanks rest)).bind fun (value, rest) =>
          (t.putPair key.path key.last value).bind fun t =>
            match skipBlanks rest with
            | '}' :: rest => some (t, rest)
            | ',' :: rest => scanPairs fuel depth t rest
            | _ => none
      | _ => none

end

/-! ## Lines -/

/-- What has been read of a document: its table, and the path of the last header. -/
structure Draft where
  root : Table
  path : List String

/-- A key and its value, for the table of the last header. -/
def Draft.scanPair (d : Draft) (cs : List Char) : Option (Draft × List Char) :=
  (scanKey cs).bind fun (key, rest) =>
    match rest with
    | '=' :: rest => do
      let (value, rest) ← scanValue (2 * rest.length + 1) 0 (skipBlanks rest)
      let root ← d.root.update false (Table.putPair key.path key.last value) d.path
      return (⟨root, d.path⟩, rest)
    | _ => none

/-- What a line says, if it says anything. -/
def Draft.scanLine (d : Draft) : List Char → Option (Draft × List Char)
  | '[' :: '[' :: rest =>
    (scanKey rest).bind fun (key, rest) =>
      match rest with
      | ']' :: ']' :: rest =>
        (d.root.openItem key.path key.last).map fun root => (⟨root, key.path ++ [key.last]⟩, rest)
      | _ => none
  | '[' :: rest =>
    (scanKey rest).bind fun (key, rest) =>
      match rest with
      | ']' :: rest =>
        (d.root.openTable key.path key.last).map fun root => (⟨root, key.path ++ [key.last]⟩, rest)
      | _ => none
  | c :: rest =>
    if c = '#' || c = '\n' || c = '\x0d' then some (d, c :: rest) else d.scanPair (c :: rest)
  | [] => some (d, [])

/-- The lines of a document. -/
def Draft.scanLines : Nat → Draft → List Char → Option Table
  | 0, _, _ => none
  | fuel + 1, d, cs =>
    match skipBlanks cs with
    | [] => some d.root
    | cs => do
      let (d, rest) ← d.scanLine cs
      let rest ← lineEnd? rest
      scanLines fuel d rest

/-- A mark of the byte order in front of a document is left out. -/
def skipByteOrderMark : List Char → List Char
  | '\ufeff' :: rest => rest
  | rest => rest

/-- The table that a document stands for. -/
def parse? (cs : List Char) : Option Table :=
  Draft.scanLines (cs.length + 1) ⟨Table.empty .header, []⟩ (skipByteOrderMark cs)

end BeliefGraph.Toml
