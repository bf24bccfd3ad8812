import Mathlib.Data.List.Dedup
import BeliefGraph.Proofs.Snapshot.Atomicity

/-!
# Documents rebuilt in a store

An accepted document without a cycle among its links is rebuilt by any store that has room for its
records, whatever the store holds and whichever ids the document uses. One renaming covers all ids that
occur in the document. Those of records become the ids of their atoms, and the others become ids that
are reserved and never resolve.

Most of this is what a transfer has come to (`Transfer.Carried`). What is added here is the count of the
dangling references: `Transfer.Tally` lists the ids without a record that a transfer has met, and at the
end these are the dangling ids of the document.
-/

namespace BeliefGraph.Snapshot

/-- The ids that records reference and that none of them has, once each. -/
def Document.dangling (d : Document) : List Id :=
  ((d.records.flatMap Atom.outgoing).filter fun id => !(d.records.map Atom.id).contains id).dedup

/-- The known ids of a document are the ids of its records. -/
theorem Document.mem_known_iff {d : Document} {id : Id} : id ∈ d.known ↔ id ∈ d.records.map Atom.id := by
  rw [mem_known, List.mem_map]

/-- A dangling id is referenced by some record and is the id of none. -/
theorem Document.mem_dangling {d : Document} {id : Id} :
    id ∈ d.dangling ↔ id ∉ d.known ∧ ∃ a ∈ d.records, id ∈ a.outgoing := by
  rw [dangling, List.mem_dedup, List.mem_filter, List.mem_flatMap, mem_known_iff, Bool.not_eq_true',
    List.contains_eq_mem, decide_eq_false_iff_not, and_comm]

/-! ## Counting dangling references -/

namespace Transfer

/-- The ids without a record that a transfer has met; it has counted each of them once. -/
structure Tally (t : Transfer) (known : Std.TreeSet Id) (ids : List Id) : Prop where
  nodup : ids.Nodup
  length : ids.length = t.dangling
  mem_iff : ∀ id, id ∈ ids ↔ id ∉ known ∧ (t.target? id).isSome = true

variable {t : Transfer} {known : Std.TreeSet Id} {ids : List Id}

/-- A transfer that just began has reserved no ids. -/
theorem Tally.start (s : Store) (known : Std.TreeSet Id) : Tally ⟨s, ∅, 0⟩ known [] where
  nodup := .nil
  length := rfl
  mem_iff id := by
    have hnone : target? ⟨s, ∅, 0⟩ id = none := Std.TreeMap.getElem?_emptyc
    simp [hnone]

/-- An atom that is made has an id that is known. -/
theorem Tally.withAtom (h : t.Tally known ids) {a : Atom} (ha : a.id ∈ known) (shape : Shape) :
    (t.withAtom a shape).Tally known ids where
  nodup := h.nodup
  length := h.length
  mem_iff id := by
    rw [h.mem_iff, target?_withAtom]
    refine and_congr_right fun hid => ?_
    rw [if_neg fun heq : id = a.id => hid (heq ▸ ha)]

/-- To reserve an id for a dangling reference adds one to the tally. -/
theorem Tally.reserve (h : t.Tally known ids) {id : Id} (hid : id ∉ known)
    (hnew : t.target? id = none) : (t.reserve id).Tally known (id :: ids) where
  nodup := by
    refine List.nodup_cons.mpr ⟨fun hmem => ?_, h.nodup⟩
    have hsome := ((h.mem_iff id).mp hmem).2
    rw [hnew] at hsome
    cases hsome
  length := by
    rw [List.length_cons, h.length]
    rfl
  mem_iff x := by
    rw [List.mem_cons, h.mem_iff, target?_reserve]
    by_cases hx : x = id
    · simp [hx, hid]
    · simp [hx]

end Transfer

variable {s : Store} {d : Document} {ordered : List Atom} {t : Transfer}

/-- At the end a transfer has counted ids that records reference. -/
theorem Document.TransfersTo.exists_tally (h : d.TransfersTo s ordered t)
    (horder : creationOrder (d.records.filter Atom.isLink) = .ok ordered) :
    ∃ ids, t.Tally d.known ids ∧ ∀ id ∈ ids, ∃ a ∈ d.records, id ∈ a.outgoing := by
  refine h.induction (P := fun t => ∃ ids, t.Tally d.known ids ∧ ∀ id ∈ ids,
    ∃ a ∈ d.records, id ∈ a.outgoing) ?_ ?_ horder ⟨[], .start s d.known, by simp⟩
  · rintro t a ha shape ⟨ids, htally, hids⟩
    exact ⟨ids, htally.withAtom (Document.mem_known.mpr ⟨a, ha, rfl⟩) shape, hids⟩
  · rintro t id hid hnew hreferenced ⟨ids, htally, hids⟩
    exact ⟨id :: ids, htally.reserve hid hnew, List.forall_mem_cons.mpr ⟨hreferenced, hids⟩⟩

/-- A transfer that is at its end has counted the dangling ids. -/
theorem Document.TransfersTo.dangling_eq (h : d.TransfersTo s ordered t)
    (horder : creationOrder (d.records.filter Atom.isLink) = .ok ordered)
    (ht : t.Carried s d.known (d.records.filter Atom.isNode ++ ordered)) :
    t.dangling = d.dangling.length := by
  obtain ⟨ids, htally, hids⟩ := h.exists_tally horder
  have hmem : ∀ id, id ∈ ids ↔ id ∈ d.dangling := by
    intro id
    rw [Document.mem_dangling]
    constructor
    · intro hid
      exact ⟨((htally.mem_iff id).mp hid).1, hids id hid⟩
    · rintro ⟨hunknown, a, ha, hid⟩
      have hmade := (perm_of_order horder).mem_iff.mpr ha
      exact (htally.mem_iff id).mpr ⟨hunknown, ht.isSome_of_mentioned ⟨a, hmade, .inr hid⟩⟩
  rw [← htally.length]
  -- neither list repeats an id, so that equal members give equal lengths
  exact ((List.perm_ext_iff_of_nodup htally.nodup (List.nodup_dedup _)).mpr hmem).length_eq

/-! ## Rebuilding -/

/-- A store that held something before now also holds a document under new ids. -/
structure Rebuilds (s : Store) (d : Document) (report : Report) (after : Store) (f : Id → Id) :
    Prop where
  /-- Behind the atoms of the store stand the nodes in the order of the document, and then the links,
  each behind those that it references. There is one atom for each record, and atoms stand in the order
  in which they were made. -/
  atoms : ∃ ordered, ordered.Perm (d.records.filter Atom.isLink) ∧ ReferencesFirst ordered ∧
    after.atoms = s.atoms ++ (d.records.filter Atom.isNode ++ ordered).map (Atom.rename f)
  /-- What was in the store stays as it was. -/
  kept : ∀ id a, s.get? id = some a → after.get? id = some a
  /-- Each record stands under its new id, with its references renamed one by one. -/
  image : ∀ a ∈ d.records, after.get? (f a.id) = some (a.rename f)
  /-- New ids are handed out by the import. -/
  fresh : ∀ id, Mentioned d.records id → s.nextId ≤ f id ∧ f id < after.nextId
  injective : Set.InjOn f {id | Mentioned d.records id}
  /-- What a dangling reference becomes never resolves, whatever is done with the store. -/
  reserved : ∀ id ∈ d.dangling, ∀ ops, (after.run ops).2.get? (f id) = none
  remap : ∀ id, report.remap[id]? = if id ∈ d.records.map Atom.id then some (f id) else none
  header : report.header = d.header
  nodes : report.nodes = (d.records.filter Atom.isNode).length
  links : report.links = (d.records.filter Atom.isLink).length
  dangling : report.dangling = d.dangling.length

/-- A transfer that made all records leaves the store rebuilt: records in order and under new ids,
references with them, dangling ids spent, and the store's own atoms as they were. -/
theorem Transfer.Carried.rebuilds (hs : s.Sound) (hids : (d.records.map Atom.id).Nodup)
    (horder : creationOrder (d.records.filter Atom.isLink) = .ok ordered)
    (htransfers : d.TransfersTo s ordered t)
    (ht : t.Carried s d.known (d.records.filter Atom.isNode ++ ordered)) :
    Rebuilds s d (t.report d) t.store t.rename := by
  have hmade : ∀ a, a ∈ d.records.filter Atom.isNode ++ ordered ↔ a ∈ d.records :=
    fun _ => (perm_of_order horder).mem_iff
  have hmentioned : ∀ id, Mentioned d.records id →
      Mentioned (d.records.filter Atom.isNode ++ ordered) id :=
    fun _ => (mentioned_iff_of_order horder).mpr
  have hfresh : ∀ id, Mentioned d.records id → s.nextId ≤ t.rename id ∧ t.rename id < t.store.nextId :=
    fun id hid => ht.renames.fresh (target?_of_isSome (ht.isSome_of_mentioned (hmentioned id hid)))
  refine
    { atoms := ⟨ordered, (creationOrder_sound horder).1,
        referencesFirst_of_ok (nodup_link_ids hids) horder, ht.atoms_eq hs⟩
      kept := fun id a ha => (ht.kept id (hs.issued ha)).trans ha
      image := fun a ha => ht.image a ((hmade a).mpr ha)
      fresh := hfresh
      injective := ht.injOn.mono hmentioned
      reserved := ?_
      remap := ?_
      header := rfl
      nodes := rfl
      links := rfl
      dangling := htransfers.dangling_eq horder ht }
  · intro id hid ops
    obtain ⟨hunknown, a, ha, hreference⟩ := Document.mem_dangling.mp hid
    have hmention : Mentioned d.records id := ⟨a, ha, .inr hreference⟩
    have hnone := ht.get?_rename_of_dangling (hmentioned id hmention) fun b hb heq =>
      hunknown (Document.mem_known.mpr ⟨b, (hmade b).mp hb, heq⟩)
    -- a reserved id is below the counter and names no atom, which no later request changes
    exact (Store.Spent.run ⟨(hfresh id hmention).2, hnone⟩ ht.sound ops).2
  · intro id
    simp only [Transfer.remap_report, Std.TreeSet.contains_iff_mem, Document.mem_known_iff]
    by_cases hid : id ∈ d.records.map Atom.id
    · rw [if_pos hid, if_pos hid]
      obtain ⟨a, ha, rfl⟩ := List.mem_map.mp hid
      exact target?_of_isSome (ht.isSome_of_mentioned (hmentioned _ ⟨a, ha, .inl rfl⟩))
    · rw [if_neg hid, if_neg hid]

/-- A document that is accepted is rebuilt by a store that has room for its records, unless its links
reference each other in a cycle. -/
theorem importInto_rebuilds {s : Store} (hs : s.Sound) {bytes : ByteArray} {d : Document}
    (hread : read bytes = .ok d) (hacyclic : ¬ Cyclic (d.records.filter Atom.isLink))
    (hroom : s.HasRoomFor d.records.length) :
    ∃ report after f, importInto s bytes = (.ok report, after) ∧ Rebuilds s d report after f := by
  have hids := read_ids hread
  obtain ⟨ordered, horder⟩ := (exists_creationOrder_iff (nodup_link_ids hids)).mpr hacyclic
  obtain ⟨t, htransfers, ht⟩ := exists_transfersTo hs hids hroom horder
  refine ⟨t.report d, t.store, t.rename, ?_, ht.rebuilds hs hids horder htransfers⟩
  rw [importInto_of_read hread, recreate_of_transfersTo horder htransfers]

/-- A document as no store writes it: a link stands in front of one that it references, and ids are in
no order. The ids 99 and 50 are only referenced. -/
def scattered : Document where
  header := ⟨version, 4, 0, Timestamp.epoch⟩
  records :=
    [⟨7, .concept, .node (some "a"), Truth.unknown, Attention.none⟩,
      ⟨3, .predicate, .node none, Truth.unknown, Attention.none⟩,
      ⟨20, .list, .link [7, 4, 99], Truth.unknown, Attention.none⟩,
      ⟨4, .list, .link [3, 99, 50, 50], Truth.unknown, Attention.none⟩]

/-- The scattered document is one that a reader accepts. -/
theorem scattered_readable : scattered.Readable where
  header := ⟨rfl, by decide, by decide⟩
  counted := rfl
  sorted := by decide
  ids := by decide
  words := by
    refine fun a ha => ⟨?_, ?_, ?_⟩ <;> revert a <;> decide

/-- The links of the scattered document lead into no cycle. -/
theorem scattered_not_cyclic : ¬ Cyclic (scattered.written.records.filter Atom.isLink) := by
  have hids : (scattered.written.records.map Atom.id).Nodup := scattered_readable.ids
  have horder : (creationOrder (scattered.written.records.filter Atom.isLink)).map (List.map Atom.id)
      = .ok [4, 20] := by decide
  rw [← exists_creationOrder_iff (nodup_link_ids hids)]
  cases h : creationOrder (scattered.written.records.filter Atom.isLink) with
  | error id => simp [h, Except.map] at horder
  | ok ordered => exact ⟨ordered, rfl⟩

/-- A store with an atom, and room for just the four records, takes them. -/
theorem importInto_rebuilds_scattered :
    ∃ report after f,
      importInto ((Store.empty (some 5)).run [.createNode .concept none]).2
          (String.ofList scattered.chars).toUTF8 = (.ok report, after) ∧
        Rebuilds ((Store.empty (some 5)).run [.createNode .concept none]).2 scattered.written report
          after f ∧ report.dangling = 2 := by
  have hs := (Store.Sound.empty (some 5)).run [.createNode .concept none]
  have hroom : ((Store.empty (some 5)).run [.createNode .concept none]).2.HasRoomFor
      scattered.written.records.length := Store.hasRoomFor_of_le rfl (by decide)
  obtain ⟨report, after, f, himport, hrebuilds⟩ :=
    importInto_rebuilds hs (read_toUTF8 scattered_readable) scattered_not_cyclic hroom
  exact ⟨report, after, f, himport, hrebuilds, hrebuilds.dangling.trans (by decide)⟩

end BeliefGraph.Snapshot
