import BeliefGraph.Store.Query

/-!
# Spreading importance

Importance flows from an atom to the links that reference it, in equal whole shares, with one share
counted for the source.
-/

namespace BeliefGraph.Store

/-- What one spread did: the share that each recipient was given, and the recipients in the order of
their ids. -/
structure Spread where
  share : Int32
  recipients : List Id
  deriving DecidableEq, Repr

/-- Nothing moved. -/
def Spread.nothing : Spread := ⟨0, []⟩

/-- The largest importance. -/
def largestImportance : Nat := 0x7fffffff

/-- Changes the short-term importance of an atom by an amount, kept in range. -/
def raise (s : Store) (amount : Int) (id : Id) : Store :=
  s.modify id (fun t => t) fun a => { a with sti := clampImportance (a.sti.toInt + amount) }

/-- Spreads from a live atom. Nothing moves unless its importance is positive and some link
references it. -/
def spreadFrom (s : Store) (source : Atom) (mode : SpreadMode) : Spread × Store :=
  let links := s.incoming source.id
  if source.sti.toInt ≤ 0 ∨ links = [] then (Spread.nothing, s)
  else
    let receivers := min links.length largestImportance
    let share := source.sti.toInt / min (receivers + 1) largestImportance
    let recipients := links.map Atom.id
    let raised := recipients.foldl (fun s id => s.raise share id) s
    let final := match mode with
      | .broadcast => raised
      | .conservative => raised.raise (-(share * receivers)) source.id
    (⟨clampImportance share, recipients⟩, final)

/-- Spreads from the atom with an id. -/
def spread (s : Store) (id : Id) (mode : SpreadMode) : Except StoreError (Spread × Store) :=
  (s.get id).map fun source => s.spreadFrom source mode

end BeliefGraph.Store
