import BeliefGraph.Proofs.Snapshot.Rebuild

/-!
# Imported documents are in normal form

Whatever ids a document uses and however its links are ordered, the store that it is read into is
written as a document in normal form: reading that one gives the same store again, with all ids as they
are, so it is written as the same text.

The document that is written is the one that was read, with its links in the order in which they were
made and all its ids renamed. Two transfers of such documents go in step (`Transfer.InStep`): they make
the same atoms and reserve the same ids at the same moments. The links are in order when they are
written, so the second pass over them changes nothing.
-/

namespace BeliefGraph

/-- A node under another id is a node. -/
theorem Atom.isNode_rename (f : Id → Id) (a : Atom) : (a.rename f).isNode = a.isNode := by
  obtain ⟨id, kind, shape, truth, attention⟩ := a
  cases shape <;> rfl

/-- A link under another id is a link. -/
theorem Atom.isLink_rename (f : Id → Id) (a : Atom) : (a.rename f).isLink = a.isLink := by
  rw [isLink, isNode_rename, isLink]

/-- The references of a renamed atom are its references renamed, in the same order. -/
theorem Atom.outgoing_rename (f : Id → Id) (a : Atom) : (a.rename f).outgoing = a.outgoing.map f := by
  obtain ⟨id, kind, shape, truth, attention⟩ := a
  cases shape <;> rfl

namespace Snapshot

/-! ## Transfers in step -/

namespace Transfer

/-- Two transfers have come to the same store, and what has a new id in one of them has the same new id
under its other name in the other. -/
structure InStep (f : Id → Id) (names : Set Id) (t t' : Transfer) : Prop where
  store : t'.store = t.store
  target : ∀ id ∈ names, t'.target? (f id) = t.target? id

variable {f : Id → Id} {names : Set Id} {t t' after : Transfer} {known known' : Std.TreeSet Id}

/-- Two transfers that begin at one store are in step. -/
theorem InStep.start (s : Store) : InStep f names ⟨s, ∅, 0⟩ ⟨s, ∅, 0⟩ where
  store := rfl
  target id _ := by
    have hnone : ∀ id, target? ⟨s, ∅, 0⟩ id = none := fun id => Std.TreeMap.getElem?_emptyc
    rw [hnone, hnone]

/-- Two transfers that put one name on their next ids stay in step, if no other name becomes the same
name. -/
theorem InStep.assign (h : InStep f names t t') (hf : Set.InjOn f names) {id : Id} (hid : id ∈ names)
    {store store' : Store} (hstore : store' = store) (dangling dangling' : Nat) :
    InStep f names (t.assign id store dangling) (t'.assign (f id) store' dangling') where
  store := hstore
  target x hx := by
    rw [target?_assign, target?_assign, h.store, h.target x hx]
    simp only [hf.eq_iff hx hid]

/-- Transfers in step stay so when both reserve an id for one dangling reference. -/
theorem InStep.reserve (h : InStep f names t t') (hf : Set.InjOn f names) {id : Id}
    (hid : id ∈ names) : InStep f names (t.reserve id) (t'.reserve (f id)) :=
  h.assign hf hid (by rw [h.store]) _ _

/-- Transfers in step stay so when both make the atom of one record. -/
theorem InStep.withAtom (h : InStep f names t t') (hf : Set.InjOn f names) {a : Atom}
    (ha : a.id ∈ names) (shape : Shape) :
    InStep f names (t.withAtom a shape) (t'.withAtom (a.rename f) shape) :=
  h.assign hf ha (by rw [h.store]; rfl) _ _

/-- One transfer makes an atom when the other does. -/
theorem InStep.add (h : InStep f names t t') (hf : Set.InjOn f names) {a : Atom} (ha : a.id ∈ names)
    {shape : Shape} (hadd : t.add a shape = .ok after) :
    ∃ after', t'.add (a.rename f) shape = .ok after' ∧ InStep f names after after' := by
  obtain ⟨hroom, rfl⟩ := add_eq_ok.mp hadd
  exact ⟨_, add_eq_ok.mpr ⟨h.store ▸ hroom, rfl⟩, h.withAtom hf ha shape⟩

/-- The pass over the nodes keeps two transfers in step: a document and its renaming make equal stores. -/
theorem InStep.addNodes (h : InStep f names t t') (hf : Set.InjOn f names) {nodes : List Atom}
    (hnames : ∀ a ∈ nodes, a.id ∈ names) (hnodes : ∀ a ∈ nodes, a.isNode = true)
    (hadd : t.addNodes nodes = (.ok (), after)) :
    ∃ after', t'.addNodes (nodes.map (Atom.rename f)) = (.ok (), after') ∧
      InStep f names after after' := by
  induction nodes generalizing t t' with
  | nil =>
    cases hadd
    exact ⟨t', rfl, h⟩
  | cons a nodes ih =>
    obtain ⟨hid, hnames⟩ := List.forall_mem_cons.mp hnames
    obtain ⟨hnode, hnodes⟩ := List.forall_mem_cons.mp hnodes
    obtain ⟨label, hlabel⟩ := Atom.exists_label hnode
    have hshape : (a.rename f).shape = a.shape := by
      rw [Atom.rename, hlabel]
      rfl
    rw [Transfer.addNodes] at hadd
    cases hmade : t.add a a.shape with
    | error e => simp [hmade] at hadd
    | ok next =>
      rw [hmade] at hadd
      -- both make one atom under one id, so that they are in step when the rest is read
      obtain ⟨next', hmade', hnext⟩ := h.add hf hid hmade
      obtain ⟨after', hrest, hafter⟩ := ih hnext hnames hnodes hadd
      refine ⟨after', ?_, hafter⟩
      rw [List.map_cons, Transfer.addNodes, hshape, hmade']
      exact hrest

/-- One transfer reserves an id for a reference when the other does. -/
theorem InStep.resolveTargets (h : InStep f names t t') (hf : Set.InjOn f names)
    (hknown : ∀ id ∈ names, f id ∈ known' ↔ id ∈ known) {link : Id} {ids : List Id}
    (hids : ∀ id ∈ ids, id ∈ names) (link' : Id) (hresolve : t.resolveTargets known link ids = (.ok (), after)) :
    ∃ after', t'.resolveTargets known' link' (ids.map f) = (.ok (), after') ∧
      InStep f names after after' := by
  induction ids generalizing t t' with
  | nil =>
    cases hresolve
    exact ⟨t', rfl, h⟩
  | cons id ids ih =>
    obtain ⟨hid, hids⟩ := List.forall_mem_cons.mp hids
    rw [Transfer.resolveTargets] at hresolve
    rw [List.map_cons, Transfer.resolveTargets, h.target id hid]
    simp only [hknown id hid]
    split at hresolve
    · next hsome =>
      rw [if_pos hsome]
      -- the target has an id on both sides: nothing is reserved
      exact ih h hids hresolve
    · next hnone =>
      rw [if_neg hnone]
      split at hresolve
      · cases hresolve
      · next hunknown =>
        rw [if_neg hunknown]
        -- dangling on both sides: each reserves its next id, and the next ids are equal
        exact ih (h.reserve hf hid) hids hresolve

/-- The targets of a link, looked up under the new names, are the targets under the old ones. -/
theorem InStep.filterMap_target? (h : InStep f names t t') {ids : List Id}
    (hids : ∀ id ∈ ids, id ∈ names) : (ids.map f).filterMap t'.target? = ids.filterMap t.target? := by
  rw [List.filterMap_map]
  exact List.filterMap_congr fun id hid => h.target id (hids id hid)

/-- The pass over the links keeps two transfers in step: neither the resolved targets nor the order of the
links depends on the names. -/
theorem InStep.addLinks (h : InStep f names t t') (hf : Set.InjOn f names)
    (hknown : ∀ id ∈ names, f id ∈ known' ↔ id ∈ known) {links : List Atom}
    (hnames : ∀ a ∈ links, a.id ∈ names ∧ ∀ id ∈ a.outgoing, id ∈ names)
    (hadd : t.addLinks known links = (.ok (), after)) :
    ∃ after', t'.addLinks known' (links.map (Atom.rename f)) = (.ok (), after') ∧
      InStep f names after after' := by
  induction links generalizing t t' with
  | nil =>
    cases hadd
    exact ⟨t', rfl, h⟩
  | cons a links ih =>
    obtain ⟨⟨hid, houtgoing⟩, hnames⟩ := List.forall_mem_cons.mp hnames
    rw [Transfer.addLinks] at hadd
    rcases hresolve : t.resolveTargets known a.id a.outgoing with ⟨_ | _, resolved⟩
    · simp [hresolve] at hadd
    · simp only [hresolve] at hadd
      obtain ⟨resolved', hresolve', hresolved⟩ :=
        h.resolveTargets hf hknown houtgoing (a.rename f).id hresolve
      cases hmade : resolved.add a (.link (a.outgoing.filterMap resolved.target?)) with
      | error e => simp [hmade] at hadd
      | ok next =>
        rw [hmade] at hadd
        obtain ⟨next', hmade', hnext⟩ := hresolved.add hf hid hmade
        obtain ⟨after', hrest, hafter⟩ := ih hnext hnames hadd
        refine ⟨after', ?_, hafter⟩
        rw [List.map_cons, Transfer.addLinks, Atom.outgoing_rename, hresolve']
        simp only [hresolved.filterMap_target? houtgoing, hmade']
        exact hrest

end Transfer

/-! ## Documents under other names -/

variable {nodes links : List Atom}

/-- The nodes of a renamed document are its nodes, renamed. -/
theorem filter_isNode_rename (hnodes : ∀ a ∈ nodes, a.isNode = true)
    (hlinks : ∀ a ∈ links, a.isLink = true) (f : Id → Id) :
    ((nodes ++ links).map (Atom.rename f)).filter Atom.isNode = nodes.map (Atom.rename f) := by
  rw [List.map_append, List.filter_append, List.filter_eq_self.mpr, List.filter_eq_nil_iff.mpr,
    List.append_nil]
  · rw [List.forall_mem_map]
    intro a ha hnode
    rw [Atom.isNode_rename] at hnode
    exact Atom.not_isLink_of_isNode hnode (hlinks a ha)
  · rw [List.forall_mem_map]
    intro a ha
    rw [Atom.isNode_rename, hnodes a ha]

/-- The links of a renamed document are its links, renamed. -/
theorem filter_isLink_rename (hnodes : ∀ a ∈ nodes, a.isNode = true)
    (hlinks : ∀ a ∈ links, a.isLink = true) (f : Id → Id) :
    ((nodes ++ links).map (Atom.rename f)).filter Atom.isLink = links.map (Atom.rename f) := by
  rw [List.map_append, List.filter_append, List.filter_eq_nil_iff.mpr, List.filter_eq_self.mpr,
    List.nil_append]
  · rw [List.forall_mem_map]
    intro a ha
    rw [Atom.isLink_rename, hlinks a ha]
  · rw [List.forall_mem_map]
    intro a ha
    rw [Atom.isLink_rename]
    exact Atom.not_isLink_of_isNode (hnodes a ha)

/-- Links that are in order are so under other names. -/
theorem ReferencesFirst.rename {f : Id → Id} (h : ReferencesFirst links)
    (hf : Set.InjOn f {id | Mentioned links id}) : ReferencesFirst (links.map (Atom.rename f)) := by
  intro front a behind hsplit b hb hid
  obtain ⟨front, rest, rfl, rfl, hrest⟩ := List.map_eq_append_iff.mp hsplit
  obtain ⟨a, behind, rfl, rfl, rfl⟩ := List.map_eq_cons_iff.mp hrest
  obtain ⟨b, hmem, rfl⟩ := List.mem_map.mp hb
  rw [Atom.outgoing_rename, List.mem_map] at hid
  obtain ⟨x, hx, hxb⟩ := hid
  have ha : a ∈ front ++ a :: behind := by simp
  obtain rfl := hf ⟨a, ha, .inr hx⟩ ⟨b, hmem, .inl rfl⟩ hxb
  exact List.mem_map_of_mem (h front a behind rfl b hmem hx)

/-- A document whose records are those of another one under other names, with the links in their order, is
carried over in step with it. -/
theorem Document.TransfersTo.inStep {d d' : Document} {s : Store} {ordered : List Atom} {t : Transfer}
    {f : Id → Id} (h : d.TransfersTo s ordered t)
    (horder : creationOrder (d.records.filter Atom.isLink) = .ok ordered)
    (hf : Set.InjOn f {id | Mentioned d.records id})
    (hrecords : d'.records = (d.records.filter Atom.isNode ++ ordered).map (Atom.rename f)) :
    ∃ t', d'.TransfersTo s (ordered.map (Atom.rename f)) t' ∧
      t.InStep f {id | Mentioned d.records id} t' := by
  obtain ⟨begun, hnodes, hlinks⟩ := h
  have hmade : ∀ a, a ∈ d.records.filter Atom.isNode ++ ordered ↔ a ∈ d.records :=
    fun _ => (perm_of_order horder).mem_iff
  have hisNode : ∀ a ∈ d.records.filter Atom.isNode, a.isNode = true := fun a ha =>
    (List.mem_filter.mp ha).2
  have hordered : ∀ a ∈ ordered, a ∈ d.records ∧ a.isLink = true := fun a ha =>
    List.mem_filter.mp ((creationOrder_sound horder).1.mem_iff.mp ha)
  have hknown : ∀ id ∈ {id | Mentioned d.records id}, f id ∈ d'.known ↔ id ∈ d.known := by
    intro id hid
    rw [Document.mem_known, Document.mem_known, hrecords]
    constructor
    · rintro ⟨b, hb, heq⟩
      obtain ⟨a, ha, rfl⟩ := List.mem_map.mp hb
      have ha := (hmade a).mp ha
      exact ⟨a, ha, hf ⟨a, ha, .inl rfl⟩ hid heq⟩
    · rintro ⟨a, ha, rfl⟩
      exact ⟨a.rename f, List.mem_map_of_mem ((hmade a).mpr ha), rfl⟩
  obtain ⟨begun', hnodes', hbegun⟩ := (Transfer.InStep.start s).addNodes hf
    (fun a ha => ⟨a, List.mem_of_mem_filter ha, .inl rfl⟩) hisNode hnodes
  -- the two runs share what they mention: the names, and which of them are records
  obtain ⟨t', hlinks', ht⟩ := hbegun.addLinks hf hknown
    (fun a ha => ⟨⟨a, (hordered a ha).1, .inl rfl⟩, fun id hid => ⟨a, (hordered a ha).1, .inr hid⟩⟩)
    hlinks
  refine ⟨t', ⟨begun', ?_, hlinks'⟩, ht⟩
  rw [hrecords, filter_isNode_rename hisNode fun a ha => (hordered a ha).2]
  exact hnodes'

/-! ## Writing what was imported -/

/-- A store that was just made has no atoms. -/
theorem atoms_empty (limit : Option Nat) : (Store.empty limit).atoms = [] := rfl

/-- An import that succeeds has carried its document over. -/
theorem exists_transfersTo_of_importInto {bytes : ByteArray} {report : Report} {s : Store}
    (h : importInto (Store.empty none) bytes = (.ok report, s)) :
    ∃ d ordered t, read bytes = .ok d ∧ creationOrder (d.records.filter Atom.isLink) = .ok ordered ∧
      d.TransfersTo (Store.empty none) ordered t ∧ t.store = s ∧
      t.Carried (Store.empty none) d.known (d.records.filter Atom.isNode ++ ordered) := by
  cases hread : read bytes with
  | error e =>
    rw [importInto, hread] at h
    cases h
  | ok d =>
    rw [importInto_of_read hread] at h
    cases horder : creationOrder (d.records.filter Atom.isLink) with
    | error id =>
      rw [recreate_of_error horder] at h
      cases h
    | ok ordered =>
      obtain ⟨t, htransfers, ht⟩ := exists_transfersTo (Store.Sound.empty none) (read_ids hread)
        (Store.hasRoomFor_of_unlimited rfl _) horder
      rw [recreate_of_transfersTo horder htransfers] at h
      exact ⟨d, ordered, t, rfl, horder, htransfers, congrArg Prod.snd h, ht⟩

/-- What was made fits into lines when the ids of the store are words. -/
theorem Transfer.Carried.inWords {t : Transfer} {s : Store} {known : Std.TreeSet Id} {made : List Atom}
    (h : t.Carried s known made) (hids : t.store.nextId ≤ UInt64.size)
    (hmade : ∀ a ∈ made, a.InWords) : ∀ a ∈ made.map (Atom.rename t.rename), a.InWords := by
  have hnew : ∀ id, Mentioned made id → t.rename id < UInt64.size := fun id hid =>
    Nat.lt_of_lt_of_le (h.renames.fresh (target?_of_isSome (h.isSome_of_mentioned hid))).2 hids
  rw [List.forall_mem_map]
  refine fun a ha => ⟨hnew a.id ⟨a, ha, .inl rfl⟩, ?_, ?_⟩
  · rw [Atom.outgoing_rename, List.forall_mem_map]
    exact fun id hid => hnew id ⟨a, ha, .inr hid⟩
  · rw [Atom.outgoing_rename, List.length_map]
    exact (hmade a ha).arity

/-- In a store that was fresh, only new ids resolve. -/
theorem Transfer.Carried.exists_target? {t : Transfer} {known : Std.TreeSet Id} {made : List Atom}
    (h : t.Carried (Store.empty none) known made) {new : Id} (hnew : t.store.contains new = true) :
    ∃ a ∈ made, t.target? a.id = some new := by
  obtain ⟨b, hb⟩ := Option.isSome_iff_exists.mp hnew
  obtain ⟨a, ha, rfl⟩ := h.only (h.sound.positive hb) hnew
  exact ⟨a, ha, target?_of_isSome (h.covers a ha).id⟩

/-- What was carried over to an empty store is listed by it as nodes in the order of the document, and then
links in the order in which they were made. -/
theorem Transfer.Carried.query_eq {d : Document} {ordered : List Atom} {t : Transfer}
    (h : t.Carried (Store.empty none) d.known (d.records.filter Atom.isNode ++ ordered))
    (horder : creationOrder (d.records.filter Atom.isLink) = .ok ordered) :
    t.store.query Atom.isNode = (d.records.filter Atom.isNode).map (Atom.rename t.rename) ∧
      t.store.query Atom.isLink = ordered.map (Atom.rename t.rename) := by
  have hisNode : ∀ a ∈ d.records.filter Atom.isNode, a.isNode = true := fun a ha =>
    (List.mem_filter.mp ha).2
  have hisLink : ∀ a ∈ ordered, a.isLink = true := fun a ha =>
    (List.mem_filter.mp ((creationOrder_sound horder).1.mem_iff.mp ha)).2
  have hatoms : t.store.atoms
      = (d.records.filter Atom.isNode ++ ordered).map (Atom.rename t.rename) := by
    rw [h.atoms_eq (Store.Sound.empty none), atoms_empty, List.nil_append]
  rw [Store.query, Store.query, hatoms]
  exact ⟨filter_isNode_rename hisNode hisLink _, filter_isLink_rename hisNode hisLink _⟩

/-- The links are listed in the order in which they were made, so that a second ordering leaves them. -/
theorem Transfer.Carried.creationOrder_query {d : Document} {ordered : List Atom} {t : Transfer}
    (h : t.Carried (Store.empty none) d.known (d.records.filter Atom.isNode ++ ordered))
    (hids : (d.records.map Atom.id).Nodup)
    (horder : creationOrder (d.records.filter Atom.isLink) = .ok ordered) :
    creationOrder (t.store.query Atom.isLink) = .ok (ordered.map (Atom.rename t.rename)) := by
  have hfirst : ReferencesFirst (ordered.map (Atom.rename t.rename)) := by
    refine (referencesFirst_of_ok (nodup_link_ids hids) horder).rename (h.injOn.mono ?_)
    exact fun id ⟨a, ha, hid⟩ => ⟨a, List.mem_append_right _ ha, hid⟩
  rw [← (h.query_eq horder).2] at hfirst ⊢
  exact creationOrder_of_referencesFirst (nodup_link_ids h.sound.nodup_ids) hfirst

/-- The second of two transfers in step sends each id of the store to itself. -/
theorem Transfer.InStep.target?_self {t t' : Transfer} {known : Std.TreeSet Id} {made : List Atom}
    {ids : Set Id} (h : t.InStep t.rename ids t')
    (ht : t.Carried (Store.empty none) known made) (hmade : ∀ a ∈ made, a.id ∈ ids) {id : Id}
    (hid : t.store.contains id = true) : t'.target? id = some id := by
  obtain ⟨a, ha, htarget⟩ := ht.exists_target? hid
  have hsame := h.target a.id (hmade a ha)
  rwa [Transfer.rename_of_target? htarget, htarget] at hsame

/-- What was imported is in normal form: it is written as a text that is read as the same store, under the
same ids. -/
theorem importInto_write_normal {bytes : ByteArray} {report : Report} {s : Store}
    (himport : importInto (Store.empty none) bytes = (.ok report, s)) (hids : s.nextId ≤ UInt64.size)
    (spaceId : SpaceId) {time : Timestamp} (htime : time.isValid = true) :
    ∃ header text second after, write s spaceId time = .ok (header, text) ∧
      importInto (Store.empty none) (String.ofList text).toUTF8 = (.ok second, after) ∧
      after = s ∧ (∀ id, second.remap[id]? = if s.contains id then some id else none) ∧
      write after spaceId time = .ok (header, text) := by
  obtain ⟨d, ordered, t, hread, horder, htransfers, rfl, ht⟩ := exists_transfersTo_of_importInto himport
  obtain ⟨hnodes, hlinks⟩ := ht.query_eq horder
  have horder' := ht.creationOrder_query (read_ids hread) horder
  have hwrite := write_of_isOk (s := t.store) (by rw [horder']; rfl) spaceId time
  have hwords : ∀ a ∈ t.store.atoms, a.InWords := by
    obtain ⟨cs, ls, -, hrecords, -⟩ := exists_isDocument_of_read hread
    rw [ht.atoms_eq (Store.Sound.empty none), atoms_empty, List.nil_append]
    exact ht.inWords hids fun a ha => hrecords.inWords a ((perm_of_order horder).mem_iff.mp ha)
  have hreadable := documentOf_readable ht.sound hids hwords spaceId htime
  have hrecords : (documentOf t.store spaceId time).written.records
      = (d.records.filter Atom.isNode ++ ordered).map (Atom.rename t.rename) := by
    rw [List.map_append, ← hnodes, ← hlinks]
    rfl
  -- The second import goes through the same records under their new ids, in step with the first.
  have hf : Set.InjOn t.rename {id | Mentioned d.records id} :=
    ht.injOn.mono fun id => (mentioned_iff_of_order horder).mpr
  obtain ⟨t', htransfers', hstep⟩ := htransfers.inStep horder hf hrecords
  rw [← documentOf_links t.store spaceId time] at horder'
  refine ⟨_, _, t'.report (documentOf t.store spaceId time).written, t'.store, hwrite, ?_, hstep.store,
    ?_, ?_⟩
  · rw [importInto_of_read (read_toUTF8 hreadable)]
    exact recreate_of_transfersTo horder' htransfers'
  · intro id
    have hknown : (documentOf t.store spaceId time).written.known.contains id = t.store.contains id :=
      documentOf_known ht.sound spaceId time id
    rw [Transfer.remap_report, hknown]
    by_cases hid : t.store.contains id = true
    · rw [if_pos hid, if_pos hid]
      exact hstep.target?_self ht (fun a ha => ⟨a, (perm_of_order horder).mem_iff.mp ha, .inl rfl⟩) hid
    · rw [if_neg hid, if_neg hid]
  · rw [hstep.store]
    exact hwrite

/-- The records get the ids 1, 2, 5 and 6, and what only is referenced gets 3 and 4. They keep them when
the store is written and read again. -/
theorem importInto_write_normal_scattered :
    ∃ report s header text second after,
      importInto (Store.empty none) (String.ofList scattered.chars).toUTF8 = (.ok report, s) ∧
        s.atoms.map (fun a => (a.id, a.outgoing)) = [(1, []), (2, []), (5, [2, 3, 4, 4]), (6, [1, 5, 3])] ∧
        write s 0 Timestamp.epoch = .ok (header, text) ∧
        importInto (Store.empty none) (String.ofList text).toUTF8 = (.ok second, after) ∧ after = s := by
  have hids : (scattered.written.records.map Atom.id).Nodup := scattered_readable.ids
  obtain ⟨ordered, horder⟩ :=
    (exists_creationOrder_iff (nodup_link_ids hids)).mpr scattered_not_cyclic
  obtain ⟨t, hrecreate, -⟩ := recreate_of_order (Store.Sound.empty none) hids
    (Store.hasRoomFor_of_unlimited rfl _) horder
  have himport := (importInto_of_read (read_toUTF8 scattered_readable) (Store.empty none)).trans hrecreate
  -- what the first import makes is computed once, and the general theorem does the rest
  have hnext : (recreate (Store.empty none) scattered.written).2.nextId ≤ UInt64.size := by decide
  have hatoms : (recreate (Store.empty none) scattered.written).2.atoms.map
      (fun a => (a.id, a.outgoing)) = [(1, []), (2, []), (5, [2, 3, 4, 4]), (6, [1, 5, 3])] := by decide
  have hepoch : Timestamp.epoch.isValid = true := by decide
  rw [hrecreate] at hnext hatoms
  obtain ⟨header, text, second, after, hwrite, hagain, hafter, -, -⟩ :=
    importInto_write_normal himport hnext 0 hepoch
  exact ⟨_, _, header, text, second, after, himport, hatoms, hwrite, hagain, hafter⟩

end Snapshot

end BeliefGraph
