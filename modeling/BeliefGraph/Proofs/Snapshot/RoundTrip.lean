import BeliefGraph.Proofs.Snapshot.Recreate
import BeliefGraph.Proofs.Snapshot.Text
import BeliefGraph.Proofs.Store.History

/-!
# Snapshots are read back as isomorphic stores

A snapshot that was written of a store is read into a fresh one, whatever operations made the store.
The stores are isomorphic: the ids of one are renamed to ids of the other, one to one, and each atom
stands under its new id with its references renamed and all else as it was. References to nothing
become references to nothing.

The document of a store is readable (`Store.documentOf_readable`), so its text reads back; its records
are the live atoms, so what a transfer has come to at its end is an isomorphism.
-/

namespace BeliefGraph

/-! ## Isomorphic stores -/

/-- A live atom has the id, or references it. -/
def Store.Mentions (s : Store) (id : Id) : Prop :=
  s.contains id = true ∨ ∃ a ∈ s.atoms, id ∈ a.outgoing

/-- A store holds what another one does, under new ids. The map holds the new ids of live atoms; the
renaming also covers the ids that are only referenced. -/
structure Store.Isomorphic (s target : Store) (remap : Std.TreeMap Id Id) (f : Id → Id) : Prop where
  remap : ∀ id, remap[id]? = if s.contains id then some (f id) else none
  /-- Live ids correspond one to one. -/
  live : Set.BijOn f {id | s.contains id = true} {id | target.contains id = true}
  /-- Different ids get different new ids, live or not. -/
  injective : Set.InjOn f {id | s.Mentions id}
  /-- An atom stands under its new id, with its references renamed one by one. -/
  image : ∀ id a, s.get? id = some a → target.get? (f id) = some (a.rename f)
  /-- A reference to nothing stays one. -/
  dangling : ∀ id, s.Mentions id → s.get? id = none → target.get? (f id) = none

/-! ## The document of a store -/

/-- References fit into words. -/
def Atom.RefersInWords (a : Atom) : Prop :=
  (∀ id ∈ a.outgoing, id < UInt64.size) ∧ a.outgoing.length < UInt64.size

namespace Store

/-- Operations give links such references only. -/
theorem Step.refersInWords {s after : Store} {op : Operation} {outcome : Except StoreError Answer}
    (hstep : s.Step op outcome after) (h : ∀ id a, s.get? id = some a → a.RefersInWords) :
    ∀ id a, after.get? id = some a → a.RefersInWords := by
  intro id a ha
  cases hstep with
  | full => exact h id a ha
  | missing => exact h id a ha
  | reserved => exact h id a ha
  | deleted =>
    rw [get?_without] at ha
    split at ha
    · cases ha
    · exact h id a ha
  | written =>
    rw [get?_modify] at ha
    split at ha
    · obtain ⟨b, hb, rfl⟩ := Option.map_eq_some_iff.mp ha
      exact h id b hb
    · exact h id a ha
  | made request =>
    rw [get?_place] at ha
    split at ha
    · cases ha
      cases op <;> simp only [Operation.request?, Option.some.injEq, Prod.mk.injEq, reduceCtorEq]
        at request
      · rw [← request.2]
        -- a new node references nothing
        exact ⟨by simp [Atom.outgoing, Atom.new, Shape.outgoing], Nat.two_pow_pos 64⟩
      · next outgoing =>
        rw [← request.2]
        exact ⟨outgoing.words, outgoing.countable⟩
    · exact h id a ha

/-- If references are words and the counter stays in one word, every atom that a run leaves is written in
words. -/
theorem Sound.inWords_run {s : Store} (hs : s.Sound)
    (h : ∀ id a, s.get? id = some a → a.RefersInWords) (ops : List Operation)
    (hids : (s.run ops).2.nextId ≤ UInt64.size) : ∀ a ∈ (s.run ops).2.atoms, a.InWords := by
  intro a ha
  have ha := (hs.run ops).mem_atoms.mp ha
  obtain ⟨houtgoing, harity⟩ := run_induction
    (P := fun _ s => ∀ id a, s.get? id = some a → a.RefersInWords)
    (fun _ hstep h => hstep.refersInWords h) ops (h := []) hs h a.id a ha
  exact ⟨Nat.lt_of_lt_of_le ((hs.run ops).issued ha) hids, houtgoing, harity⟩

/-- While the ids that a store hands out are words, its atoms fit into lines. -/
theorem Reachable.inWords {s : Store} (h : s.Reachable) (hids : s.nextId ≤ UInt64.size) :
    ∀ a ∈ s.atoms, a.InWords := by
  obtain ⟨limit, ops, rfl⟩ := h
  exact (Sound.empty limit).inWords_run (fun id a h => by simp [get?_empty] at h) ops hids

end Store

namespace Snapshot

/-- A store is written when its links have an order. -/
theorem write_of_isOk {s : Store} (h : (creationOrder (s.query Atom.isLink)).isOk = true)
    (spaceId : SpaceId) (time : Timestamp) :
    write s spaceId time
      = .ok ((documentOf s spaceId time).header, (documentOf s spaceId time).chars) := by
  rw [write_eq]
  cases horder : creationOrder (s.query Atom.isLink) with
  | error id =>
    rw [horder] at h
    cases h
  | ok ordered => rfl

/-- A document of a store has its atoms for records, each once. -/
theorem documentOf_perm (s : Store) (spaceId : SpaceId) (time : Timestamp) :
    (documentOf s spaceId time).records.Perm s.atoms :=
  List.filter_append_perm Atom.isNode s.atoms

/-- What is written of a store can be read. -/
theorem documentOf_readable {s : Store} (hs : s.Sound) (hids : s.nextId ≤ UInt64.size)
    (hwords : ∀ a ∈ s.atoms, a.InWords) (spaceId : SpaceId) {time : Timestamp}
    (htime : time.isValid = true) : (documentOf s spaceId time).Readable := by
  have hperm := documentOf_perm s spaceId time
  refine
    { header := ⟨rfl, Nat.lt_of_lt_of_le hs.size_lt_nextId hids, htime⟩
      counted := ?_
      sorted := ?_
      ids := (hperm.map Atom.id).nodup_iff.mpr hs.nodup_ids
      words := fun a ha => hwords a (hperm.mem_iff.mp ha) }
  · rw [hperm.length_eq]
    exact s.size_eq_length_atoms
  · have hlinks : ∀ b ∈ s.query Atom.isLink, b.isLink = true := fun b hb => (List.mem_filter.mp hb).2
    have hnodes : ∀ a ∈ s.query Atom.isNode, ¬ a.isLink = true := fun a ha =>
      Atom.not_isLink_of_isNode (List.mem_filter.mp ha).2
    refine List.pairwise_append.mpr ⟨?_, ?_, fun a _ b hb _ => hlinks b hb⟩
    · exact List.pairwise_of_forall_mem_list fun a ha _ _ hlink => absurd hlink (hnodes a ha)
    · exact List.pairwise_of_forall_mem_list fun _ _ b hb _ => hlinks b hb

/-- The links of the document of a store are those of the store. -/
theorem documentOf_links (s : Store) (spaceId : SpaceId) (time : Timestamp) :
    (documentOf s spaceId time).records.filter Atom.isLink = s.query Atom.isLink := by
  have hnodes : (s.query Atom.isNode).filter Atom.isLink = [] := by
    rw [List.filter_eq_nil_iff]
    exact fun a ha => Atom.not_isLink_of_isNode (List.mem_filter.mp ha).2
  rw [documentOf, List.filter_append, hnodes, List.nil_append, Store.query, List.filter_filter]
  simp only [Bool.and_self]

/-- The text that is written of a store is read as its document. -/
theorem read_of_write {s : Store} (h : s.Reachable) (hids : s.nextId ≤ UInt64.size)
    {spaceId : SpaceId} {time : Timestamp} (htime : time.isValid = true) {header : Header}
    {text : List Char} (hwrite : write s spaceId time = .ok (header, text)) :
    read (String.ofList text).toUTF8 = .ok (documentOf s spaceId time).written := by
  have hreadable := documentOf_readable h.sound hids (h.inWords hids) spaceId htime
  rw [write_eq] at hwrite
  split at hwrite
  · cases hwrite
  · cases hwrite
    exact read_toUTF8 hreadable

/-! ## The store that is read -/

namespace Transfer

variable {s target : Store} {t : Transfer} {made : List Atom}

/-- The ids of the store are mentioned by its atoms. -/
theorem mentioned_of_mentions (hs : s.Sound) (hmade : ∀ a, a ∈ made ↔ s.get? a.id = some a) {id : Id}
    (hid : s.Mentions id) : Mentioned made id := by
  rcases hid with hid | ⟨a, ha, hid⟩
  · obtain ⟨a, ha⟩ := Option.isSome_iff_exists.mp hid
    obtain rfl := hs.keyed ha
    exact ⟨a, (hmade a).mpr ha, .inl rfl⟩
  · exact ⟨a, (hmade a).mpr (hs.mem_atoms.mp ha), .inr hid⟩

/-- A fresh store holds nothing but what was made. -/
theorem Carried.exists_of_contains {known : Std.TreeSet Id}
    (ht : t.Carried (Store.empty none) known made) (hmade : ∀ a, a ∈ made ↔ s.get? a.id = some a)
    {new : Id} (hnew : t.store.contains new = true) :
    ∃ id, s.contains id = true ∧ t.rename id = new := by
  obtain ⟨b, hb⟩ := Option.isSome_iff_exists.mp hnew
  obtain ⟨a, ha, hrename⟩ := ht.only (ht.sound.positive hb) hnew
  refine ⟨a.id, ?_, hrename⟩
  rw [Store.contains, (hmade a).mp ha, Option.isSome_some]

/-- A transfer into a fresh store that has made the atoms of a store has made an isomorphic one. -/
theorem Carried.isomorphic {d : Document} (ht : t.Carried (Store.empty none) d.known made)
    (hs : s.Sound) (hmade : ∀ a, a ∈ made ↔ s.get? a.id = some a)
    (hknown : ∀ id, d.known.contains id = s.contains id) :
    s.Isomorphic t.store (t.report d).remap t.rename := by
  have hmentioned : ∀ id, s.Mentions id → Mentioned made id := fun _ => mentioned_of_mentions hs hmade
  have hinjective : Set.InjOn t.rename {id | s.Mentions id} := ht.injOn.mono hmentioned
  have himage : ∀ id a, s.get? id = some a → t.store.get? (t.rename id) = some (a.rename t.rename) := by
    intro id a ha
    obtain rfl := hs.keyed ha
    exact ht.image a ((hmade a).mpr ha)
  refine
    { remap := ?_
      live := ⟨?_, hinjective.mono fun id hid => .inl hid,
        fun new hnew => ht.exists_of_contains hmade hnew⟩
      injective := hinjective
      image := himage
      dangling := ?_ }
  · intro id
    rw [remap_report, hknown]
    by_cases hid : s.contains id = true
    · rw [if_pos hid, if_pos hid]
      exact target?_of_isSome (ht.isSome_of_mentioned (hmentioned id (.inl hid)))
    · rw [if_neg hid, if_neg hid]
  · intro id hid
    obtain ⟨a, ha⟩ := Option.isSome_iff_exists.mp hid
    show (t.store.get? (t.rename id)).isSome = true
    rw [himage id a ha, Option.isSome_some]
  · intro id hid hnone
    -- an id that is mentioned but not live is the id of no record
    refine ht.get?_rename_of_dangling (hmentioned id hid) ?_
    rintro a ha rfl
    rw [(hmade a).mp ha] at hnone
    cases hnone

end Transfer

/-- The known ids of the document of a store are its live ids. -/
theorem documentOf_known {s : Store} (hs : s.Sound) (spaceId : SpaceId) (time : Timestamp) (id : Id) :
    (documentOf s spaceId time).known.contains id = s.contains id := by
  have hperm := documentOf_perm s spaceId time
  rw [Bool.eq_iff_iff, Std.TreeSet.contains_iff_mem, Document.mem_known]
  constructor
  · rintro ⟨a, ha, rfl⟩
    rw [Store.contains, hs.mem_atoms.mp (hperm.mem_iff.mp ha)]
    rfl
  · intro hid
    obtain ⟨a, ha⟩ := Option.isSome_iff_exists.mp hid
    have hid := hs.keyed ha
    exact ⟨a, hperm.mem_iff.mpr (hs.mem_atoms.mpr (hid ▸ ha)), hid⟩

/-- A snapshot of a store is read into a fresh store, and the two are isomorphic. The store is what any
operations lead to while the ids that they hand out are words. -/
theorem importInto_write (limit : Option Nat) (ops : List Operation) (spaceId : SpaceId)
    (time : Timestamp) {header : Header} {text : List Char} (htime : time.isValid = true)
    (hids : ((Store.empty limit).run ops).2.nextId ≤ UInt64.size)
    (hwrite : write ((Store.empty limit).run ops).2 spaceId time = .ok (header, text)) :
    ∃ report target rename,
      importInto (Store.empty none) (String.ofList text).toUTF8 = (.ok report, target)
        ∧ report.header
            = ⟨version, ((Store.empty limit).run ops).2.size, spaceId, time.inMicroseconds⟩
        ∧ ((Store.empty limit).run ops).2.Isomorphic target report.remap rename := by
  have hempty := Store.Sound.empty limit
  have hs : ((Store.empty limit).run ops).2.Sound := hempty.run ops
  have hwords := hempty.inWords_run (fun id a h => by simp [Store.get?_empty] at h) ops hids
  generalize ((Store.empty limit).run ops).2 = s at *
  have hreadable := documentOf_readable hs hids hwords spaceId htime
  have hperm := documentOf_perm s spaceId time
  rw [write_eq] at hwrite
  cases horder : creationOrder (s.query Atom.isLink) with
  | error id => simp [horder] at hwrite
  | ok ordered =>
    rw [horder] at hwrite
    cases hwrite
    rw [← documentOf_links s spaceId time] at horder
    -- There is no limit, so there is room for the records.
    obtain ⟨t, hrecreate, ht⟩ := recreate_of_order (d := (documentOf s spaceId time).written)
      (Store.Sound.empty none) hreadable.ids (fun limit hl => by cases hl) horder
    have hmade : ∀ a, a ∈ (documentOf s spaceId time).records.filter Atom.isNode ++ ordered
        ↔ s.get? a.id = some a := by
      intro a
      rw [(perm_of_order horder).mem_iff, hperm.mem_iff, hs.mem_atoms]
    refine ⟨t.report (documentOf s spaceId time).written, t.store, t.rename, ?_, rfl,
      ht.isomorphic hs hmade (documentOf_known hs spaceId time)⟩
    rw [importInto, read_toUTF8 hreadable]
    exact hrecreate

/-- A link references a later link, an atom that is deleted, and twice an id that no atom ever has. -/
def mixedOperations : List Operation :=
  [.createNode .concept (some "one\nEND two"), .createNode .predicate none,
    .createLink .list ⟨[4, 2, 9, 9], by decide, by decide⟩,
    .createLink .list ⟨[1], by decide, by decide⟩, .addSti 1 (-7), .delete 2]

/-- Nodes and links with forward, repeated and deleted targets are written, read back and renamed. -/
theorem importInto_write_mixed :
    ∃ header text report target rename,
      write ((Store.empty none).run mixedOperations).2 0 Timestamp.epoch = .ok (header, text)
        ∧ importInto (Store.empty none) (String.ofList text).toUTF8 = (.ok report, target)
        ∧ report.header = ⟨version, 3, 0, Timestamp.epoch⟩
        ∧ ((Store.empty none).run mixedOperations).2.Isomorphic target report.remap rename := by
  have hwrite := write_of_isOk (s := ((Store.empty none).run mixedOperations).2) (by decide) 0
    Timestamp.epoch
  obtain ⟨report, target, rename, himport, hheader, hisomorphic⟩ :=
    importInto_write none mixedOperations 0 Timestamp.epoch (by decide) (by decide) hwrite
  exact ⟨_, _, report, target, rename, hwrite, himport, hheader, hisomorphic⟩

end Snapshot

end BeliefGraph
