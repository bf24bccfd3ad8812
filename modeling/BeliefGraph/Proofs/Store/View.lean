import Mathlib.Data.List.Perm.Subperm
import Mathlib.Data.List.Sort
import BeliefGraph.Store.Query

/-!
# Stores seen through their ids

`Store.get?` is the view of a store. Each operation on a store has one lemma that says what it does to
the view, and the list of atoms is recovered from the view: `Store.atoms` holds the atoms that ids
resolve to, once each and by id. `Sound` is what holds of every store that the operations reach:
atoms are kept under their own ids, and these are among the ids handed out.
-/

namespace BeliefGraph.Store

/-! ## The effect of each operation on the view -/

/-- In a store without atoms no id resolves. -/
theorem get?_empty (limit : Option Nat) (id : Id) : (empty limit).get? id = none := by
  simp [get?, empty]

/-- A new atom stands under the next id; the others stay. -/
theorem get?_place (s : Store) (kind : Kind) (shape : Shape) (id : Id) :
    (s.place kind shape).get? id
      = if id = s.nextId then some (Atom.new s.nextId kind shape) else s.get? id := by
  simp only [get?, place, Atom.new, file]
  rw [Std.TreeMap.getElem?_insert]
  simp only [Std.LawfulEqCmp.compare_eq_iff_eq, eq_comm (a := s.nextId)]

/-- A reservation changes no atom. -/
theorem get?_reserve (s : Store) (id : Id) : s.reserve.2.get? id = s.get? id := rfl

/-- The store without an atom, which is also taken out of the indexes. -/
def without (s : Store) (a : Atom) : Store :=
  { s.unfile a with byId := s.byId.erase a.id }

/-- Without an atom its id does not resolve, and all others resolve as before. -/
theorem get?_without (s : Store) (a : Atom) (id : Id) :
    (s.without a).get? id = if id = a.id then none else s.get? id := by
  simp only [get?, without, unfile]
  rw [Std.TreeMap.getElem?_erase]
  simp only [Std.LawfulEqCmp.compare_eq_iff_eq, eq_comm (a := a.id)]

/-- A write changes the atom under its id and no other. -/
theorem get?_modify (s : Store) (id : Id) (f : Truth → Truth) (g : Attention → Attention)
    (x : Id) :
    (s.modify id f g).get? x
      = if x = id then
          (s.get? x).map fun a => { a with truth := f a.truth, attention := g a.attention }
        else s.get? x := by
  simp only [get?, modify]
  rw [Std.TreeMap.getElem?_modify]
  by_cases hx : x = id
  · subst hx
    simp
  · have hne : compare id x ≠ .eq := fun h => hx (Std.LawfulEqCmp.eq_of_compare h).symm
    rw [if_neg hne, if_neg hx]

/-- A new atom whose values are written at once. -/
theorem get?_place_modify (s : Store) (kind : Kind) (shape : Shape) (f : Truth → Truth)
    (g : Attention → Attention) (x : Id) :
    ((s.place kind shape).modify s.nextId f g).get? x
      = if x = s.nextId then some ⟨s.nextId, kind, shape, f Truth.unknown, g Attention.none⟩
        else s.get? x := by
  rw [get?_modify, get?_place]
  split
  · rfl
  · rfl

/-- A store with room makes the atom under the next id. -/
theorem create_of_hasRoom {s : Store} (h : s.hasRoom = true) (kind : Kind) (shape : Shape) :
    s.create kind shape = .ok (Atom.new s.nextId kind shape, s.place kind shape) := by
  unfold create
  cases hl : s.limit with
  | none => rfl
  | some limit =>
    rw [hasRoom, hl, Option.all_some, decide_eq_true_eq] at h
    simp only [h, if_true]

/-- A store without room refuses and says what its limit is. -/
theorem create_of_not_hasRoom {s : Store} (h : s.hasRoom = false) (kind : Kind) (shape : Shape) :
    ∃ limit, s.create kind shape = .error (.exhausted limit) := by
  unfold create
  cases hl : s.limit with
  | none =>
    rw [hasRoom, hl] at h
    cases h
  | some limit =>
    rw [hasRoom, hl, Option.all_some, decide_eq_false_iff_not] at h
    exact ⟨limit, if_neg h⟩

/-- A store without a limit refuses nothing. -/
theorem create_of_unlimited {s : Store} (h : s.limit = none) (kind : Kind) (shape : Shape) :
    s.create kind shape = .ok (Atom.new s.nextId kind shape, s.place kind shape) :=
  create_of_hasRoom (by rw [hasRoom, h, Option.all_none]) kind shape

/-! ## Soundness -/

/-- What holds of every store that the operations reach. -/
structure Sound (s : Store) : Prop where
  /-- An atom is kept under its own id. -/
  keyed : ∀ {id a}, s.get? id = some a → a.id = id
  /-- The id of an atom has been handed out. -/
  issued : ∀ {id a}, s.get? id = some a → id < s.nextId
  /-- Zero is never handed out. -/
  positive : ∀ {id a}, s.get? id = some a → 0 < id
  next_pos : 0 < s.nextId

/-- A store without atoms is sound. -/
theorem Sound.empty (limit : Option Nat) : (Store.empty limit).Sound where
  keyed h := by simp [get?_empty] at h
  issued h := by simp [get?_empty] at h
  positive h := by simp [get?_empty] at h
  next_pos := Nat.one_pos

/-- An id that was not handed out yet does not resolve. -/
theorem Sound.get?_of_le {s : Store} (hs : s.Sound) {id : Id} (h : s.nextId ≤ id) :
    s.get? id = none := by
  cases hg : s.get? id with
  | none => rfl
  | some a => exact absurd (hs.issued hg) (Nat.not_lt.mpr h)

/-- A new atom under the next id keeps the store sound. -/
theorem Sound.place {s : Store} (hs : s.Sound) (kind : Kind) (shape : Shape) :
    (s.place kind shape).Sound := by
  have hnext : (s.place kind shape).nextId = s.nextId + 1 := rfl
  refine ⟨?_, ?_, ?_, by rw [hnext]; exact Nat.succ_pos _⟩ <;> intro id a h <;>
    rw [get?_place] at h <;> split at h
  · next hid => cases h; exact hid.symm
  · exact hs.keyed h
  · next hid => rw [hnext, hid]; exact Nat.lt_succ_self _
  · rw [hnext]
    exact Nat.lt_succ_of_lt (hs.issued h)
  · next hid => rw [hid]; exact hs.next_pos
  · exact hs.positive h

/-- A reservation keeps the store sound. -/
theorem Sound.reserve {s : Store} (hs : s.Sound) : s.reserve.2.Sound :=
  ⟨fun h => hs.keyed h, fun h => Nat.lt_succ_of_lt (hs.issued h), fun h => hs.positive h,
    Nat.succ_pos _⟩

/-- A deletion keeps the store sound. -/
theorem Sound.without {s : Store} (hs : s.Sound) (a : Atom) : (s.without a).Sound := by
  have hget : ∀ {id b}, (s.without a).get? id = some b → s.get? id = some b := by
    intro id b h
    rw [get?_without] at h
    split at h
    · simp at h
    · exact h
  exact ⟨fun h => hs.keyed (hget h), fun h => hs.issued (hget h), fun h => hs.positive (hget h),
    hs.next_pos⟩

/-- A write keeps the store sound. -/
theorem Sound.modify {s : Store} (hs : s.Sound) (id : Id) (f : Truth → Truth)
    (g : Attention → Attention) : (s.modify id f g).Sound := by
  have hget : ∀ {x b}, (s.modify id f g).get? x = some b → ∃ a, s.get? x = some a ∧ b.id = a.id := by
    intro x b h
    rw [get?_modify] at h
    split at h
    · obtain ⟨a, ha, rfl⟩ := Option.map_eq_some_iff.mp h
      exact ⟨a, ha, rfl⟩
    · exact ⟨b, h, rfl⟩
  -- a write changes no id, so that each fact is the one of the atom before
  refine ⟨fun h => ?_, fun h => ?_, fun h => ?_, hs.next_pos⟩ <;> obtain ⟨a, ha, hid⟩ := hget h
  · rw [hid]
    exact hs.keyed ha
  · exact hs.issued ha
  · exact hs.positive ha

/-! ## The number of atoms -/

/-- A new atom makes the store larger by one, since its id was free. -/
theorem Sound.size_place {s : Store} (hs : s.Sound) (kind : Kind) (shape : Shape) :
    (s.place kind shape).size = s.size + 1 := by
  have hnone : s.byId[s.nextId]? = none := hs.get?_of_le (Nat.le_refl _)
  have hmem : s.byId.contains s.nextId = false := by
    rw [Std.TreeMap.contains_eq_isSome_getElem?, hnone]
    rfl
  simp only [size, Store.place, Atom.new, file]
  rw [Std.TreeMap.size_insert, hmem]
  simp

/-- A deletion makes no store larger. -/
theorem size_without_le (s : Store) (a : Atom) : (s.without a).size ≤ s.size :=
  Std.TreeMap.size_erase_le

/-- A write changes the size of no store. -/
theorem size_modify (s : Store) (id : Id) (f : Truth → Truth) (g : Attention → Attention) :
    (s.modify id f g).size = s.size :=
  Std.TreeMap.size_modify

/-! ## The list of atoms -/

/-- Atoms in the order of their ids. -/
def ById (a b : Atom) : Prop := a.id < b.id

instance : Std.Irrefl ById := ⟨fun a => Nat.lt_irrefl a.id⟩

instance : Std.Antisymm ById := ⟨fun _ _ h h' => absurd h' (Nat.lt_asymm h)⟩

instance : IsTrans Atom ById := ⟨fun _ _ _ h h' => Nat.lt_trans h h'⟩

/-- The atoms of a store are those that their own ids resolve to. -/
theorem Sound.mem_atoms {s : Store} (hs : s.Sound) {a : Atom} :
    a ∈ s.atoms ↔ s.get? a.id = some a := by
  simp only [atoms, List.mem_map, Prod.exists, Std.TreeMap.mem_toList_iff_getElem?_eq_some]
  constructor
  · rintro ⟨id, b, h, rfl⟩
    have hid : b.id = id := hs.keyed h
    rw [hid]
    exact h
  · intro h
    exact ⟨a.id, a, h, rfl⟩

/-- Atoms are listed in the order of their ids. -/
theorem Sound.pairwise_atoms {s : Store} (hs : s.Sound) : s.atoms.Pairwise ById := by
  have hkeys := Std.TreeMap.ordered_keys_toList (t := s.byId)
  rw [atoms, List.pairwise_map]
  apply hkeys.imp_of_mem
  intro p q hp hq hlt
  have hp := hs.keyed (Std.TreeMap.mem_toList_iff_getElem?_eq_some.mp hp)
  have hq := hs.keyed (Std.TreeMap.mem_toList_iff_getElem?_eq_some.mp hq)
  rw [ById, hp, hq]
  exact Std.LawfulLTCmp.eq_lt_iff_lt.mp hlt

/-- The atoms of a store are the only list by id with these members. -/
theorem Sound.eq_atoms {s : Store} (hs : s.Sound) {as : List Atom} (hsort : as.Pairwise ById)
    (hmem : ∀ a, a ∈ as ↔ s.get? a.id = some a) : as = s.atoms :=
  hsort.eq_of_mem_iff hs.pairwise_atoms fun a => by rw [hmem, hs.mem_atoms]

/-- The size of a store is the number of atoms that it lists. -/
theorem size_eq_length_atoms (s : Store) : s.size = s.atoms.length := by
  rw [atoms, List.length_map, Std.TreeMap.length_toList, size]

/-- No two listed atoms have one id. -/
theorem Sound.nodup_ids {s : Store} (hs : s.Sound) : (s.atoms.map Atom.id).Nodup := by
  rw [List.Nodup, List.pairwise_map]
  exact hs.pairwise_atoms.imp Nat.ne_of_lt

/-- An id is listed exactly if it is live. -/
theorem Sound.mem_ids {s : Store} (hs : s.Sound) {id : Id} :
    id ∈ s.atoms.map Atom.id ↔ s.contains id = true := by
  rw [List.mem_map, contains, Option.isSome_iff_exists]
  constructor
  · rintro ⟨a, ha, rfl⟩
    exact ⟨a, hs.mem_atoms.mp ha⟩
  · rintro ⟨a, ha⟩
    obtain rfl := hs.keyed ha
    exact ⟨a, hs.mem_atoms.mpr ha, rfl⟩

/-- There are fewer atoms than ids up to the next one. -/
theorem Sound.size_lt_nextId {s : Store} (hs : s.Sound) : s.size < s.nextId := by
  -- live ids differ and lie between one and the counter
  have hsub : s.atoms.map Atom.id ⊆ List.range' 1 (s.nextId - 1) := by
    intro id hid
    obtain ⟨a, ha, rfl⟩ := List.mem_map.mp hid
    have ha := hs.mem_atoms.mp ha
    rw [List.mem_range'_1, Nat.add_sub_of_le hs.next_pos]
    exact ⟨hs.positive ha, hs.issued ha⟩
  have hle := (List.subperm_of_subset hs.nodup_ids hsub).length_le
  rw [List.length_map, List.length_range', ← size_eq_length_atoms] at hle
  exact Nat.lt_of_le_of_lt hle (Nat.sub_lt hs.next_pos Nat.one_pos)

/-- Ids upwards resolve to atoms by id. -/
theorem Sound.pairwise_resolveAll {s : Store} (hs : s.Sound) {ids : List Id}
    (hsort : ids.Pairwise (· < ·)) : (s.resolveAll ids).Pairwise ById := by
  rw [resolveAll, List.pairwise_filterMap]
  apply hsort.imp
  intro x y hxy a ha b hb
  rw [ById, hs.keyed ha, hs.keyed hb]
  exact hxy

/-- Ids upwards resolve to the atoms that satisfy a condition if they are the ids of these. -/
theorem Sound.resolveAll_eq_query {s : Store} (hs : s.Sound) {ids : List Id}
    (hsort : ids.Pairwise (· < ·)) {p : Atom → Bool}
    (hmem : ∀ a, s.get? a.id = some a → (a.id ∈ ids ↔ p a = true)) :
    s.resolveAll ids = s.query p := by
  refine (hs.pairwise_resolveAll hsort).eq_of_mem_iff (hs.pairwise_atoms.filter _) ?_
  intro a
  rw [resolveAll, query, List.mem_filterMap, List.mem_filter, hs.mem_atoms]
  constructor
  · rintro ⟨id, hid, ha⟩
    have hkey := hs.keyed ha
    subst hkey
    exact ⟨ha, (hmem a ha).mp hid⟩
  · rintro ⟨ha, hp⟩
    exact ⟨a.id, (hmem a ha).mpr hp, ha⟩

end BeliefGraph.Store
