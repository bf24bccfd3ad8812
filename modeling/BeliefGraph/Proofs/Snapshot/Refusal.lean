import BeliefGraph.Proofs.Snapshot.Atomicity

/-!
# Cycles are refused

A store is written, and a document is read, unless links reference each other in a cycle. Both ask
`creationOrder`, so what the passes say of any links holds of the live links of a store and of the links
of a document. The refusal names the first link, in the order of the ids of the store or of the records
of the document, from which references lead into a cycle. That link need not be on the cycle: it may
only reference a link that is.
-/

namespace BeliefGraph.Snapshot

/-- No two links of a store have one id. -/
theorem query_link_ids {s : Store} (hs : s.Sound) : ((s.query Atom.isLink).map Atom.id).Nodup :=
  nodup_link_ids hs.nodup_ids

/-- A store is refused with the id for which its links have no order. -/
theorem write_eq_cyclicReference_iff {s : Store} {spaceId : SpaceId} {time : Timestamp} {id : Id} :
    write s spaceId time = .error (.cyclicReference id)
      ↔ creationOrder (s.query Atom.isLink) = .error id := by
  rw [write_eq]
  cases creationOrder (s.query Atom.isLink) with
  | error other => simp
  | ok ordered => simp

/-- A store whose links reference each other in no cycle is written. -/
theorem write_of_not_cyclic {s : Store} (hs : s.Sound) (hacyclic : ¬ Cyclic (s.query Atom.isLink))
    (spaceId : SpaceId) (time : Timestamp) :
    write s spaceId time
      = .ok ((documentOf s spaceId time).header, (documentOf s spaceId time).chars) := by
  obtain ⟨ordered, horder⟩ := (exists_creationOrder_iff (query_link_ids hs)).mpr hacyclic
  exact write_of_isOk (by rw [horder]; rfl) spaceId time

/-- An import ends with a cyclic reference exactly if the links of its document admit no order, and it
names the link at which the order fails. -/
theorem importInto_eq_cyclicReference_iff {s : Store} (hs : s.Reachable) {bytes : ByteArray}
    {d : Document} (hread : read bytes = .ok d) {id : Id} :
    (importInto s bytes).1 = .error (.cyclicReference id)
      ↔ creationOrder (d.records.filter Atom.isLink) = .error id := by
  rw [importInto_of_read hread]
  exact recreate_eq_cyclicReference_iff hs.sound hs.size_le (read_ids hread)

/-! ## The id that is named -/

/-- Writing a store and reading a document fail for a cycle with the id of the first link that leads into
one. -/
theorem cyclicReference_names_first {s : Store} (hs : s.Reachable) :
    (∀ spaceId time id, write s spaceId time = .error (.cyclicReference id)
      ↔ FirstIntoCycle (s.query Atom.isLink) id) ∧
    ∀ bytes d id, read bytes = .ok d → ((importInto s bytes).1 = .error (.cyclicReference id)
      ↔ FirstIntoCycle (d.records.filter Atom.isLink) id) := by
  constructor
  · intro spaceId time id
    rw [write_eq_cyclicReference_iff, creationOrder_eq_error_iff (query_link_ids hs.sound)]
  · intro bytes d id hread
    have hids := nodup_link_ids (read_ids hread)
    rw [importInto_eq_cyclicReference_iff hs hread, creationOrder_eq_error_iff hids]

/-- Two links reference the second of them. -/
def selfReferenceOperations : List Operation :=
  [.createLink .list (.one 2 (by decide)), .createLink .list (.one 2 (by decide))]

/-- The link that references itself is refused, and its own id is named. -/
theorem write_selfReference : write ((Store.empty none).run selfReferenceOperations).2 0
    Timestamp.epoch = .error (.cyclicReference 1) := by
  rw [write_eq_cyclicReference_iff]
  decide

/-- The first link leads into the cycle of the second. -/
theorem cyclicReference_names_first_link :
    FirstIntoCycle (((Store.empty none).run selfReferenceOperations).2.query Atom.isLink) 1 :=
  ((cyclicReference_names_first ⟨none, selfReferenceOperations, rfl⟩).1 0 Timestamp.epoch 1).mp
    write_selfReference

/-- The first link, which is named, is not on a cycle: no link references it. -/
theorem cyclicReference_off_cycle :
    write ((Store.empty none).run selfReferenceOperations).2 0 Timestamp.epoch
        = .error (.cyclicReference 1) ∧
      ¬ ∃ a, OnCycle (((Store.empty none).run selfReferenceOperations).2.query Atom.isLink) a ∧
        a.id = 1 := by
  refine ⟨write_selfReference, ?_⟩
  rintro ⟨a, hcycle, hid⟩
  obtain ⟨b, hb, hmem⟩ := hcycle.exists_referrer
  have hothers : ∀ b ∈ ((Store.empty none).run selfReferenceOperations).2.query Atom.isLink,
      1 ∉ b.outgoing := by decide
  exact hothers b hb (hid ▸ hmem)

/-! ## Refusal exactly on cycles -/

/-- Links are put in an order unless there is a cycle. -/
structure OrdersLinks (links : List Atom) : Prop where
  /-- The passes come to an end, and `creationOrder` is what they come to. -/
  ends : ∀ outcome, Passes (idsOf links) ∅ links outcome ↔ creationOrder links = outcome
  accepts_iff : (∃ ordered, creationOrder links = .ok ordered) ↔ ¬ Cyclic links
  orders : ∀ ordered, creationOrder links = .ok ordered →
    ordered.Perm links ∧ ReferencesFirst ordered
  keeps : ReferencesFirst links → creationOrder links = .ok links

/-- The order is found exactly for links without a cycle, and each of these stands behind its references.
-/
theorem ordersLinks {links : List Atom} (hids : (links.map Atom.id).Nodup) : OrdersLinks links where
  ends _ := passes_iff
  accepts_iff := exists_creationOrder_iff hids
  orders _ horder := ⟨(creationOrder_sound horder).1, referencesFirst_of_ok hids horder⟩
  keeps := creationOrder_of_referencesFirst hids

/-- A text that is written has bytes: its trailer starts with a tag. -/
theorem Document.utf8_chars_ne_nil (d : Document) : utf8 d.chars ≠ [] := by
  rw [Document.chars, trailer, utf8, List.flatMap_append, List.flatMap_append, List.flatMap_append]
  have htag : trailerTag.flatMap String.utf8EncodeChar ≠ [] := by decide
  simp [htag]

/-- A store is written unless its links reference each other in a cycle. -/
structure WrittenUnlessCyclic (s : Store) : Prop where
  refused_iff : ∀ spaceId time, (∃ id, write s spaceId time = .error (.cyclicReference id))
    ↔ Cyclic (s.query Atom.isLink)
  /-- Nothing is sent to the receiver exactly if there is a cycle: it is found before the first line. -/
  silent_iff : ∀ spaceId time, (transmit s spaceId time).bytes = [] ↔ Cyclic (s.query Atom.isLink)
  /-- What was written is refused by no store for a cycle. -/
  readable : s.nextId ≤ UInt64.size → ∀ spaceId time header text, time.isValid = true →
    write s spaceId time = .ok (header, text) → ∀ target : Store, target.Reachable →
    ∀ id, (importInto target (String.ofList text).toUTF8).1 ≠ .error (.cyclicReference id)

/-- Every reachable store is written unless it has a cycle, and one with a cycle sends no byte. -/
theorem writtenUnlessCyclic {s : Store} (hs : s.Reachable) : WrittenUnlessCyclic s := by
  have hids := query_link_ids hs.sound
  constructor
  · intro spaceId time
    simp only [write_eq_cyclicReference_iff]
    exact exists_creationOrder_error_iff hids
  · intro spaceId time
    rw [← exists_creationOrder_error_iff hids]
    cases horder : creationOrder (s.query Atom.isLink) with
    | error id =>
      -- the links are put in order before the first line is sent
      rw [transmit_of_error horder]
      simp [Transmission.bytes, utf8]
    | ok ordered =>
      rw [transmit_of_ok horder]
      simp [Transmission.bytes, Document.utf8_chars_ne_nil]
  · intro hwords spaceId time header text htime hwrite target htarget id
    -- an import of what was written orders the same links, which have an order
    have hread := read_of_write hs hwords htime hwrite
    rw [ne_eq, importInto_eq_cyclicReference_iff htarget hread]
    show ¬ creationOrder ((documentOf s spaceId time).records.filter Atom.isLink) = _
    rw [documentOf_links, ← write_eq_cyclicReference_iff, hwrite]
    rintro ⟨⟩

/-- Links with ids of their own have an order exactly when no chain of references comes around, and stores
are written accordingly. -/
theorem refusal_exactly_on_cycles :
    (∀ links : List Atom, (links.map Atom.id).Nodup → OrdersLinks links) ∧
      ∀ s : Store, s.Reachable → WrittenUnlessCyclic s :=
  ⟨fun _ hids => ordersLinks hids, fun _ hs => writtenUnlessCyclic hs⟩

/-- The reference of the second link to itself is a cycle, and nothing is written. -/
theorem refusal_exactly_on_cycles_selfReference :
    ((((Store.empty none).run selfReferenceOperations).2.query Atom.isLink).map Atom.id).Nodup ∧
      Cyclic (((Store.empty none).run selfReferenceOperations).2.query Atom.isLink) ∧
      (transmit ((Store.empty none).run selfReferenceOperations).2 0 Timestamp.epoch).bytes = [] := by
  have hids : ((((Store.empty none).run selfReferenceOperations).2.query
      Atom.isLink).map Atom.id).Nodup := by decide
  have horders := refusal_exactly_on_cycles.1 _ hids
  have hwritten := refusal_exactly_on_cycles.2 _ ⟨none, selfReferenceOperations, rfl⟩
  have hcyclic : Cyclic (((Store.empty none).run selfReferenceOperations).2.query Atom.isLink) := by
    rw [← not_not (a := Cyclic _), ← horders.accepts_iff,
      write_eq_cyclicReference_iff.mp write_selfReference]
    rintro ⟨ordered, ⟨⟩⟩
  exact ⟨hids, hcyclic, (hwritten.silent_iff 0 Timestamp.epoch).mpr hcyclic⟩

/-- A link that references a later one is made behind it. -/
example : (creationOrder (((Store.empty none).run mixedOperations).2.query Atom.isLink)).map
    (List.map Atom.id) = .ok [4, 3] := by decide

end BeliefGraph.Snapshot
