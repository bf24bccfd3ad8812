import BeliefGraph.Proofs.Snapshot.NormalForm
import BeliefGraph.Proofs.Snapshot.Refusal

/-!
# Imports close no cycle

A link can be made before what it references, and then an import may hand out the id that the link waits
for: an old link starts to reference an atom of the document. So references lead from the old links into
what was imported. None leads back, though. A copy of a record references new ids only, and among the
copies those with smaller ids, since each record is made behind the ones that it references. A chain of
references that has left the old links goes down in ids and never comes around (`Descends`).

All of this holds wherever an import stops (`importInto_cases`). A store that can be written can therefore
be written after any import, and after any number of them.
-/

namespace BeliefGraph.Snapshot

open Relation (TransGen)

/-! ## Links behind others -/

/-- What newer links reference is newer as well, and has a smaller id. -/
def Descends (older newer : List Atom) : Prop :=
  ∀ a ∈ newer, ∀ b ∈ older ++ newer, b.id ∈ a.outgoing → b ∈ newer ∧ b.id < a.id

section

variable {older newer : List Atom} {a b : Atom}

/-- A chain of references that has come to a newer link goes down in ids. -/
theorem Descends.chain_of_newer (h : Descends older newer)
    (hab : TransGen (Refers (older ++ newer)) a b) (ha : a ∈ newer) : b ∈ newer ∧ b.id < a.id := by
  induction hab with
  | single hstep => exact h a ha _ hstep.2.1 hstep.2.2
  | tail _ hstep ih =>
    obtain ⟨hmid, hlt⟩ := ih
    obtain ⟨hnewer, hlt'⟩ := h _ hmid _ hstep.2.1 hstep.2.2
    exact ⟨hnewer, hlt'.trans hlt⟩

/-- A chain of references to an older link has met older links only. -/
theorem Descends.chain_of_older (h : Descends older newer)
    (hab : TransGen (Refers (older ++ newer)) a b) (hb : b ∉ newer) : TransGen (Refers older) a b := by
  -- No link in front of an older one is newer, since newer links lead to newer ones.
  have hstep : ∀ {a b}, Refers (older ++ newer) a b → b ∉ newer → a ∉ newer ∧ Refers older a b := by
    rintro a b ⟨ha, hb, hid⟩ hnot
    have hold : a ∉ newer := fun hnewer => hnot (h a hnewer b hb hid).1
    exact ⟨hold, (List.mem_append.mp ha).resolve_right hold, (List.mem_append.mp hb).resolve_right hnot,
      hid⟩
  induction hab with
  | single hlast => exact .single (hstep hlast hb).2
  | tail _ hlast ih =>
    obtain ⟨hmid, hrefers⟩ := hstep hlast hb
    exact (ih hmid).tail hrefers

/-- Newer links of this kind close no cycle, whichever of them the older links reference. -/
theorem Descends.not_cyclic (h : Descends older newer) (holder : ¬ Cyclic older) :
    ¬ Cyclic (older ++ newer) := by
  rintro ⟨a, hcycle⟩
  by_cases ha : a ∈ newer
  · exact lt_irrefl _ (h.chain_of_newer hcycle ha).2
  · exact holder ⟨a, h.chain_of_older hcycle ha⟩

/-- A list that is cut keeps its order. -/
theorem ReferencesFirst.take {records : List Atom} (h : ReferencesFirst records) (n : Nat) :
    ReferencesFirst (records.take n) := by
  intro front a behind hsplit b hb hid
  refine h front a (behind ++ records.drop n) ?_ b (List.mem_of_mem_take hb) hid
  rw [← List.cons_append, ← List.append_assoc, ← hsplit, List.take_append_drop]

end

/-! ## Imports -/

namespace Transfer

variable {t : Transfer} {s : Store} {known : Std.TreeSet Id} {made : List Atom}

/-- The links of the store that is read into stand in front, and behind them the copies of the links that
were read. -/
theorem Carried.query_isLink (h : t.Carried s known made) (hs : s.Sound) :
    t.store.query Atom.isLink
      = s.query Atom.isLink ++ (made.map (Atom.rename t.rename)).filter Atom.isLink := by
  rw [Store.query, h.atoms_eq hs, List.filter_append]
  rfl

/-- The copies of records that stand behind those that they reference reference such copies as were made
earlier, and nothing that the store held before. -/
theorem Carried.descends (h : t.Carried s known made) (hs : s.Sound) (hfirst : ReferencesFirst made) :
    Descends (s.query Atom.isLink) ((made.map (Atom.rename t.rename)).filter Atom.isLink) := by
  intro a' ha' b' hb' hid
  obtain ⟨a, ha, rfl⟩ := List.mem_map.mp (List.mem_filter.mp ha').1
  rw [Atom.outgoing_rename] at hid
  obtain ⟨id, hmem, hrename⟩ := List.mem_map.mp hid
  -- A reference of a copy has been handed out by the transfer, so no old atom has this id.
  have hnew : s.nextId ≤ b'.id := by
    rw [← hrename]
    exact (h.renames.fresh (target?_of_isSome ((h.covers a ha).outgoing id hmem))).1
  have hcopy : b' ∈ (made.map (Atom.rename t.rename)).filter Atom.isLink := by
    refine (List.mem_append.mp hb').resolve_left fun hold => ?_
    exact absurd (hs.issued (hs.mem_atoms.mp (List.mem_filter.mp hold).1)) (Nat.not_lt.mpr hnew)
  refine ⟨hcopy, ?_⟩
  obtain ⟨b, hb, rfl⟩ := List.mem_map.mp (List.mem_filter.mp hcopy).1
  obtain rfl : id = b.id := h.injOn ⟨a, ha, .inr hmem⟩ ⟨b, hb, .inl rfl⟩ hrename
  -- It is the id of a record that stands in front and was made earlier.
  obtain ⟨front, behind, rfl⟩ := List.append_of_mem ha
  have hfront : b ∈ front := hfirst front a behind rfl b hb hmem
  exact (List.pairwise_append.mp h.upwards).2.2 b hfront a List.mem_cons_self

/-- Reading into a store whose links reference each other in no cycle closes none. -/
theorem Carried.not_cyclic (h : t.Carried s known made) (hs : s.Sound) (hfirst : ReferencesFirst made)
    (hacyclic : ¬ Cyclic (s.query Atom.isLink)) : ¬ Cyclic (t.store.query Atom.isLink) := by
  rw [h.query_isLink hs]
  exact (h.descends hs hfirst).not_cyclic hacyclic

end Transfer

/-- An import that changes a store carries some records into it, for which there was room, each behind
those that it references. -/
theorem importInto_cases {s : Store} (hs : s.Sound) (hsize : ∀ {n}, s.limit = some n → s.size ≤ n)
    (bytes : ByteArray) :
    (importInto s bytes).2 = s ∨ ∃ t known made, (importInto s bytes).2 = t.store ∧
      Transfer.Carried t s known made ∧ ReferencesFirst made ∧ s.HasRoomFor made.length := by
  cases hread : read bytes with
  | error e =>
    left
    rw [importInto, hread]
  | ok d =>
    have hids := read_ids hread
    rw [importInto_of_read hread]
    cases horder : creationOrder (d.records.filter Atom.isLink) with
    | error id =>
      left
      rw [recreate_of_error horder]
    | ok ordered =>
      right
      have hfirst := Document.referencesFirst hids horder
      -- Either all records are made, or the first of them as far as there is room.
      rcases s.hasRoomFor_or d.records.length with hroom | ⟨limit, hl, hfull⟩
      · obtain ⟨t, hrecreate, ht⟩ := recreate_of_order hs hids hroom horder
        refine ⟨t, d.known, _, by rw [hrecreate], ht, hfirst, ?_⟩
        rwa [List.length_append, length_of_order horder]
      · obtain ⟨t, hrecreate, ht⟩ := recreate_of_full hs hl (hsize hl) hids hfull horder
        refine ⟨t, d.known, _, by rw [hrecreate], ht, hfirst.take _, Store.hasRoomFor_of_le hl ?_⟩
        have := hsize hl
        have := List.length_take_le (limit - s.size) (d.records.filter Atom.isNode ++ ordered)
        omega

/-- A store within its limit whose links reference each other in no cycle. -/
structure Writable (s : Store) : Prop where
  sound : s.Sound
  size_le : ∀ {n}, s.limit = some n → s.size ≤ n
  not_cyclic : ¬ Cyclic (s.query Atom.isLink)

/-- A store that can be written is written. -/
theorem Writable.exists_write {s : Store} (h : Writable s) (spaceId : SpaceId) (time : Timestamp) :
    ∃ header text, write s spaceId time = .ok (header, text) :=
  ⟨_, _, write_of_not_cyclic h.sound h.not_cyclic spaceId time⟩

/-- One import, whatever the bytes are and wherever it stops. -/
theorem Writable.importInto {s : Store} (h : Writable s) (bytes : ByteArray) :
    Writable (importInto s bytes).2 := by
  rcases importInto_cases h.sound h.size_le bytes with hsame | ⟨t, known, made, hafter, ht, hfirst, hroom⟩
  · rwa [hsame]
  · rw [hafter]
    refine ⟨ht.sound, fun {n} hn => ?_, ht.not_cyclic h.sound hfirst h.not_cyclic⟩
    rw [ht.size]
    exact hroom n (ht.limit ▸ hn)

/-- The store after some imports. -/
def importAll (s : Store) (inputs : List ByteArray) : Store :=
  inputs.foldl (fun s bytes => (importInto s bytes).2) s

/-- Reading any number of texts, one after the other, leaves a store that can be written. -/
theorem Writable.importAll {s : Store} (h : Writable s) (inputs : List ByteArray) :
    Writable (importAll s inputs) := by
  induction inputs generalizing s with
  | nil => exact h
  | cons bytes inputs ih => exact ih (h.importInto bytes)

/-- No import makes links reference each other in a cycle, be it refused or stopped by a store that is
full: a store that could be written before can still be written. -/
theorem importInto_not_cyclic {s : Store} (hs : s.Reachable)
    (hacyclic : ¬ Cyclic (s.query Atom.isLink)) :
    (∀ bytes, ¬ Cyclic ((importInto s bytes).2.query Atom.isLink) ∧
      ∀ spaceId time, ∃ header text, write (importInto s bytes).2 spaceId time = .ok (header, text)) ∧
    ∀ inputs, ¬ Cyclic ((importAll s inputs).query Atom.isLink) ∧
      ∀ spaceId time, ∃ header text, write (importAll s inputs) spaceId time = .ok (header, text) := by
  have hwritable : Writable s := ⟨hs.sound, hs.size_le, hacyclic⟩
  constructor
  · intro bytes
    have hafter := hwritable.importInto bytes
    exact ⟨hafter.not_cyclic, hafter.exists_write⟩
  · intro inputs
    have hafter := hwritable.importAll inputs
    exact ⟨hafter.not_cyclic, hafter.exists_write⟩

/-- A link that references what has not been made, and room for three atoms more. -/
def expecting : Store :=
  ((Store.empty (some 4)).run [.createLink .list ⟨[6, 7], by decide, by decide⟩]).2

/-- The store is full before the last link of `scattered`. The one in front of it has got the id 6, so the
old link now references it. -/
theorem importInto_not_cyclic_expecting :
    ¬ Cyclic (expecting.query Atom.isLink) ∧
      (importInto expecting (String.ofList scattered.chars).toUTF8).1 = .error (.store (.exhausted 4)) ∧
      ((importInto expecting (String.ofList scattered.chars).toUTF8).2.query Atom.isLink).map
        (fun a => (a.id, a.outgoing)) = [(1, [6, 7]), (6, [3, 4, 5, 5])] ∧
      ∃ header text, write (importInto expecting (String.ofList scattered.chars).toUTF8).2 0
        Timestamp.epoch = .ok (header, text) := by
  have hs : expecting.Reachable := ⟨some 4, _, rfl⟩
  have hacyclic : ¬ Cyclic (expecting.query Atom.isLink) :=
    (exists_creationOrder_iff (query_link_ids hs.sound)).mp ⟨_, rfl⟩
  have hwrite := ((importInto_not_cyclic hs hacyclic).1 (String.ofList scattered.chars).toUTF8).2 0
    Timestamp.epoch
  rw [importInto_of_read (read_toUTF8 scattered_readable)] at hwrite ⊢
  exact ⟨hacyclic, rfl, by decide, hwrite⟩

end BeliefGraph.Snapshot
