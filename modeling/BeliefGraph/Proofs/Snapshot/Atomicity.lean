import BeliefGraph.Proofs.Snapshot.Cycles
import BeliefGraph.Proofs.Snapshot.RoundTrip
import BeliefGraph.Proofs.Store.Contract

/-!
# Imports that fail

A document is checked as a whole before anything is made of it, so an import that refuses its document
leaves the store as it was. Once the links have an order, the only thing that can go wrong is that the
store is full. The transfer then stops with the first record that has no room: the store has gained
copies of the records in front of it, in the order in which they are made. Each of these stands behind
the records that it references, so wherever the cut falls the references among them resolve.

`Transfer.addNodes` and `Transfer.addLinks` are followed up to the cut with the lemmas on transfers that
have room (`Carried.addNodes`, `Carried.addLinks`), and then stopped by a store that `IsFull`.
-/

namespace BeliefGraph

namespace Store

/-- A store has room for so many atoms if they do not exceed its limit. -/
theorem hasRoomFor_of_le {s : Store} {limit count : Nat} (hl : s.limit = some limit)
    (hcount : s.size + count ≤ limit) : s.HasRoomFor count := by
  intro other hother
  rw [hl] at hother
  cases hother
  exact hcount

/-- A store has room for some more atoms, or it is full before it has them all. -/
theorem hasRoomFor_or (s : Store) (count : Nat) :
    s.HasRoomFor count ∨ ∃ limit, s.limit = some limit ∧ limit < s.size + count := by
  by_cases h : s.HasRoomFor count
  · exact .inl h
  · rw [HasRoomFor] at h
    push Not at h
    exact .inr h

/-- A full store refuses to make an atom, for its limit. -/
theorem create_of_isFull {s : Store} {limit : Nat} (h : s.IsFull limit) (kind : Kind)
    (shape : Shape) : s.create kind shape = .error (.exhausted limit) := by
  obtain ⟨hl, hsize⟩ := h
  simp only [create, hl]
  rw [if_neg (Nat.not_lt.mpr hsize)]

end Store

namespace Snapshot

/-! ## Documents that were read -/

/-- Records that are read have ids of their own. -/
theorem read_ids {bytes : ByteArray} {d : Document} (h : read bytes = .ok d) :
    (d.records.map Atom.id).Nodup := by
  obtain ⟨cs, ls, -, hrecords, -⟩ := exists_isDocument_of_read h
  exact hrecords.ids

/-- Reading a text that is a document makes the records of the document. -/
theorem importInto_of_read {bytes : ByteArray} {d : Document} (h : read bytes = .ok d) (s : Store) :
    importInto s bytes = recreate s d := by
  rw [importInto, h]

/-! ## Transfers that stop -/

namespace Transfer

variable {t after : Transfer} {s : Store} {a : Atom} {known : Std.TreeSet Id} {made : List Atom}

/-- The loop over nodes goes on from what it has come to. -/
theorem addNodes_append {front : List Atom} (h : t.addNodes front = (.ok (), after))
    (behind : List Atom) : t.addNodes (front ++ behind) = after.addNodes behind := by
  induction front generalizing t with
  | nil =>
    cases h
    rfl
  | cons a front ih =>
    rw [addNodes] at h
    rw [List.cons_append, addNodes]
    cases hadd : t.add a a.shape with
    | error e => simp [hadd] at h
    | ok next =>
      rw [hadd] at h
      exact ih h

/-- The loop over links goes on from what it has come to. -/
theorem addLinks_append {front : List Atom} (h : t.addLinks known front = (.ok (), after))
    (behind : List Atom) : t.addLinks known (front ++ behind) = after.addLinks known behind := by
  induction front generalizing t with
  | nil =>
    cases h
    rfl
  | cons a front ih =>
    rw [addLinks] at h
    rw [List.cons_append, addLinks]
    -- The front was made without an error, so neither its references nor its atoms were refused.
    rcases hresolve : resolveTargets known a.id t a.outgoing with ⟨_ | _, resolved⟩
    · simp [hresolve] at h
    · simp only [hresolve] at h ⊢
      cases hadd : resolved.add a (.link (a.outgoing.filterMap resolved.target?)) with
      | error e => simp [hadd] at h
      | ok next =>
        rw [hadd] at h
        exact ih h

/-- A full store refuses the copy of a record. -/
theorem add_of_isFull {limit : Nat} (h : t.store.IsFull limit) (record : Atom) (shape : Shape) :
    t.add record shape = .error (.store (.exhausted limit)) := by
  rw [add, Store.create_of_isFull h]

/-- When as many records were made as there was room for, the store is full. -/
theorem Carried.isFull (h : t.Carried s known made) {limit : Nat} (hl : s.limit = some limit)
    (hmade : limit ≤ s.size + made.length) : t.store.IsFull limit :=
  ⟨h.limit.trans hl, h.size ▸ hmade⟩

/-- Nodes are made until the store is full. -/
theorem Carried.addNodes_stop {front behind : List Atom} (h : t.Carried s known made) {limit : Nat}
    (hl : s.limit = some limit) (hfull : s.size + (made.length + front.length) = limit)
    (hawaits : Awaits known made (front ++ a :: behind))
    (hnodes : ∀ b ∈ front, b.isNode = true) :
    ∃ after, t.addNodes (front ++ a :: behind) = (.error (.store (.exhausted limit)), after) ∧
      after.Carried s known (made ++ front) := by
  have hroom := Store.hasRoomFor_of_le hl hfull.le
  obtain ⟨after, hfront, hcarried⟩ := h.addNodes hroom hawaits.front hnodes
  have hstop : after.store.IsFull limit := hcarried.isFull hl (by rw [List.length_append]; omega)
  refine ⟨after, ?_, hcarried⟩
  rw [addNodes_append hfront, Transfer.addNodes, add_of_isFull hstop]

/-- Links are made until the store is full. -/
theorem Carried.addLinks_stop {among taken : Std.TreeSet Id} {front behind : List Atom}
    (h : t.Carried s known made) {limit : Nat} (hl : s.limit = some limit)
    (hfull : s.size + (made.length + front.length) = limit)
    (hawaits : Awaits known made (front ++ a :: behind))
    (hlinks : ∀ b ∈ front, b.isLink = true) (horder : InOrder among taken (front ++ a :: behind))
    (htaken : ∀ id ∈ known, (id ∈ among → id ∈ taken) → ∃ b ∈ made, b.id = id) :
    ∃ after, t.addLinks known (front ++ a :: behind)
        = (.error (.store (.exhausted limit)), after) ∧ after.Carried s known (made ++ front) := by
  obtain ⟨hfrontOrder, hready, -⟩ := inOrder_append.mp horder
  have hroom := Store.hasRoomFor_of_le hl hfull.le
  obtain ⟨before, hfront, hbefore⟩ := h.addLinks hroom hawaits.front hlinks hfrontOrder htaken
  -- The references of the next link get new ids before the store refuses it.
  obtain ⟨after, hresolve, hcarried, -, -⟩ :=
    hbefore.resolveTargets a.id
      (hbefore.isSome_of_isReady hready (exists_made_append front htaken))
  have hstop : after.store.IsFull limit := hcarried.isFull hl (by rw [List.length_append]; omega)
  refine ⟨after, ?_, hcarried⟩
  rw [addLinks_append hfront, Transfer.addLinks, hresolve]
  simp only [add_of_isFull hstop]

/-- The atoms of the store are those it had before, and behind them the images of what was made. -/
theorem Carried.atoms_eq (h : t.Carried s known made) (hs : s.Sound) :
    t.store.atoms = s.atoms ++ made.map (Atom.rename t.rename) := by
  have hfresh : ∀ a ∈ made, s.nextId ≤ t.rename a.id := fun a ha =>
    (h.renames.fresh (target?_of_isSome (h.covers a ha).id)).1
  refine (h.sound.eq_atoms ?_ fun b => ?_).symm
  · refine List.pairwise_append.mpr ⟨hs.pairwise_atoms, ?_, ?_⟩
    · rw [List.pairwise_map]
      exact h.upwards
    · intro b hb c hc
      obtain ⟨a, ha, rfl⟩ := List.mem_map.mp hc
      exact Nat.lt_of_lt_of_le (hs.issued (hs.mem_atoms.mp hb)) (hfresh a ha)
  · -- An atom below the ids that were next is an old one, and all others are copies.
    rw [List.mem_append, List.mem_map, hs.mem_atoms]
    constructor
    · rintro (hold | ⟨a, ha, rfl⟩)
      · rwa [h.kept b.id (hs.issued hold)]
      · exact h.image a ha
    · intro hb
      rcases Nat.lt_or_ge b.id s.nextId with hlt | hge
      · rw [h.kept b.id hlt] at hb
        exact .inl hb
      · obtain ⟨a, ha, hid⟩ := h.only hge (by rw [hb]; rfl)
        have himage := h.image a ha
        rw [hid, hb, Option.some.injEq] at himage
        exact .inr ⟨a, ha, himage.symm⟩

end Transfer

/-! ## Documents without a cycle -/

/-- A list that is longer than a number is cut behind that many members, with one more behind the cut. -/
theorem exists_cut {α : Type} {xs : List α} {n : Nat} (h : n < xs.length) :
    ∃ x behind, xs = xs.take n ++ x :: behind := by
  refine ⟨xs[n], xs.drop (n + 1), ?_⟩
  rw [← List.drop_eq_getElem_cons h, List.take_append_drop]

/-- A store without room for all records gains those that it has room for. -/
theorem recreate_of_full {s : Store} (hs : s.Sound) {limit : Nat} (hl : s.limit = some limit)
    (hsize : s.size ≤ limit) {d : Document} (hids : (d.records.map Atom.id).Nodup)
    (hfull : limit < s.size + d.records.length) {ordered : List Atom}
    (horder : creationOrder (d.records.filter Atom.isLink) = .ok ordered) :
    ∃ t : Transfer, recreate s d = (.error (.store (.exhausted limit)), t.store) ∧
      t.Carried s d.known ((d.records.filter Atom.isNode ++ ordered).take (limit - s.size)) := by
  obtain ⟨hperm, hinorder⟩ := creationOrder_sound horder
  have hawaits := Document.awaits hids horder
  have hlength := length_of_order horder
  have hstart := Transfer.Carried.start hs d.known
  have hisNode : ∀ a ∈ d.records.filter Atom.isNode, a.isNode = true := fun a ha =>
    (List.mem_filter.mp ha).2
  have hexists : ∀ id ∈ d.known, (id ∈ idsOf (d.records.filter Atom.isLink) →
      id ∈ (∅ : Std.TreeSet Id)) → ∃ a ∈ d.records.filter Atom.isNode, a.id = id :=
    fun id => Document.exists_node
  rw [recreate, horder, ← Document.known]
  simp only
  generalize d.records.filter Atom.isNode = nodes at *
  rcases Nat.lt_or_ge (limit - s.size) nodes.length with hcut | hcut
  · -- The first record without room is a node.
    obtain ⟨a, behind, hsplit⟩ := exists_cut hcut
    have hfront := hawaits.front
    rw [hsplit] at hfront
    obtain ⟨t, hadd, ht⟩ := hstart.addNodes_stop hl
      (by rw [List.length_nil, List.length_take]; omega) hfront
      fun b hb => hisNode b (List.mem_of_mem_take hb)
    rw [← hsplit] at hadd
    refine ⟨t, ?_, ?_⟩
    · rw [hadd]
    · rwa [List.take_append_of_le_length hcut.le]
  · -- There is room for the nodes, and the first record without room is a link.
    have hcutLinks : limit - s.size - nodes.length < ordered.length := by omega
    obtain ⟨a, behind, hsplit⟩ := exists_cut hcutLinks
    have hroom : s.HasRoomFor nodes.length := Store.hasRoomFor_of_le hl (by omega)
    obtain ⟨begun, hadd, hbegun⟩ := hstart.addNodes (by rwa [List.length_nil, Nat.zero_add])
      hawaits.front hisNode
    have hbehind := hawaits.behind
    rw [hsplit] at hbehind hinorder
    obtain ⟨t, hlinks, ht⟩ := hbegun.addLinks_stop hl
      (by rw [List.nil_append, List.length_take]; omega) hbehind
      (fun b hb => (List.mem_filter.mp (hperm.mem_iff.mp (List.mem_of_mem_take hb))).2) hinorder
      hexists
    rw [← hsplit] at hlinks
    refine ⟨t, ?_, ?_⟩
    · rw [hadd]
      simp only [hlinks]
    · rwa [List.take_append, List.take_of_length_le hcut]

/-- Links without an order are refused before anything is made. -/
theorem recreate_of_error {d : Document} {id : Id}
    (h : creationOrder (d.records.filter Atom.isLink) = .error id) (s : Store) :
    recreate s d = (.error (.cyclicReference id), s) := by
  rw [recreate, h]

/-- Records whose links have an order are refused only by a store that has no room for them. -/
theorem recreate_eq_error_iff {s : Store} (hs : s.Sound)
    (hsize : ∀ {n}, s.limit = some n → s.size ≤ n) {d : Document}
    (hids : (d.records.map Atom.id).Nodup) {ordered : List Atom}
    (horder : creationOrder (d.records.filter Atom.isLink) = .ok ordered) {e : SnapshotError} :
    (recreate s d).1 = .error e ↔ ∃ limit, s.limit = some limit ∧
      limit < s.size + d.records.length ∧ e = .store (.exhausted limit) := by
  rcases s.hasRoomFor_or d.records.length with hroom | ⟨limit, hl, hfull⟩
  · obtain ⟨t, hrecreate, -⟩ := recreate_of_order hs hids hroom horder
    rw [hrecreate]
    constructor
    · rintro ⟨⟩
    · rintro ⟨limit, hl, hfull, -⟩
      exact absurd (hroom limit hl) (Nat.not_le.mpr hfull)
  · obtain ⟨t, hrecreate, -⟩ := recreate_of_full hs hl (hsize hl) hids hfull horder
    rw [hrecreate]
    constructor
    · rintro ⟨⟩
      exact ⟨limit, hl, hfull, rfl⟩
    · rintro ⟨other, hother, -, rfl⟩
      rw [hl] at hother
      cases hother
      rfl

/-- A cycle is met when links get their order, or not at all. -/
theorem recreate_eq_cyclicReference_iff {s : Store} (hs : s.Sound)
    (hsize : ∀ {n}, s.limit = some n → s.size ≤ n) {d : Document}
    (hids : (d.records.map Atom.id).Nodup) {id : Id} :
    (recreate s d).1 = .error (.cyclicReference id)
      ↔ creationOrder (d.records.filter Atom.isLink) = .error id := by
  cases horder : creationOrder (d.records.filter Atom.isLink) with
  | error other => rw [recreate_of_error horder, Except.error.injEq, Except.error.injEq,
      SnapshotError.cyclicReference.injEq]
  | ok ordered =>
    rw [recreate_eq_error_iff hs hsize hids horder]
    constructor
    · rintro ⟨limit, -, -, ⟨⟩⟩
    · rintro ⟨⟩

/-! ## Cuts -/

/-- Nodes in front of links that have their order have one with them. -/
theorem ReferencesFirst.nodes_append {nodes ordered : List Atom} (h : ReferencesFirst ordered)
    (hnodes : ∀ a ∈ nodes, a.outgoing = []) : ReferencesFirst (nodes ++ ordered) := by
  intro front a behind hsplit b hb hid
  rcases List.append_eq_append_iff.mp hsplit with ⟨between, rfl, hordered⟩ | ⟨between, hfront, hcons⟩
  · -- The link stands among the links, behind all nodes.
    rcases List.mem_append.mp hb with hb | hb
    · exact List.mem_append_left _ hb
    · exact List.mem_append_right _ (h between a behind hordered b hb hid)
  · cases between with
    | nil =>
      rw [List.append_nil] at hfront
      rcases List.mem_append.mp hb with hb | hb
      · rwa [← hfront]
      · exact absurd (h [] a behind hcons.symm b hb hid) List.not_mem_nil
    | cons c between =>
      cases hcons
      rw [hnodes a (by rw [hfront]; simp)] at hid
      cases hid

/-- The records of a document are made in such an order. -/
theorem Document.referencesFirst {d : Document} (hids : (d.records.map Atom.id).Nodup)
    {ordered : List Atom} (horder : creationOrder (d.records.filter Atom.isLink) = .ok ordered) :
    ReferencesFirst (d.records.filter Atom.isNode ++ ordered) :=
  (referencesFirst_of_ok (nodup_link_ids hids) horder).nodes_append fun _ ha =>
    Atom.outgoing_of_isNode (List.mem_filter.mp ha).2

/-- Wherever such a list is cut, what the records in front of the cut reference stands there too. -/
theorem ReferencesFirst.mem_take {records : List Atom} (h : ReferencesFirst records) {n : Nat}
    {a b : Atom} (ha : a ∈ records.take n) (hb : b ∈ records) (hid : b.id ∈ a.outgoing) :
    b ∈ records.take n := by
  obtain ⟨front, behind, hsplit⟩ := List.append_of_mem ha
  have hrecords : records = front ++ a :: (behind ++ records.drop n) := by
    conv_lhs => rw [← List.take_append_drop n records, hsplit]
    simp
  rw [hsplit]
  exact List.mem_append_left _ (h front a _ hrecords b hb hid)

/-- A store holds what another one held and, behind it, copies of some records of a document. What the
copies reference among the records is a copy as well. -/
structure HoldsCopies (s after : Store) (records made : List Atom) (f : Id → Id) : Prop where
  atoms : after.atoms = s.atoms ++ made.map (Atom.rename f)
  resolves : ∀ a ∈ made, ∀ r ∈ records, r.id ∈ a.outgoing →
    r ∈ made ∧ after.get? (f r.id) = some (r.rename f)

/-- What a transfer has carried into a store are copies of the first records, in the order of creation. -/
theorem Transfer.Carried.holdsCopies {t : Transfer} {s : Store} {d : Document} (hs : s.Sound)
    {ordered : List Atom} (hids : (d.records.map Atom.id).Nodup)
    (horder : creationOrder (d.records.filter Atom.isLink) = .ok ordered) {n : Nat}
    (ht : t.Carried s d.known ((d.records.filter Atom.isNode ++ ordered).take n)) :
    HoldsCopies s t.store d.records ((d.records.filter Atom.isNode ++ ordered).take n) t.rename where
  atoms := ht.atoms_eq hs
  resolves a ha r hr hid := by
    have hmade := (Document.referencesFirst hids horder).mem_take ha
      ((perm_of_order horder).mem_iff.mpr hr) hid
    exact ⟨hmade, ht.image r hmade⟩

/-! ## Imports -/

/-- What an import leaves behind when it fails. -/
structure ImportsAtomically (s : Store) (bytes : ByteArray) : Prop where
  /-- Whatever is wrong with the bytes, the store stays as it was. -/
  unchanged : ∀ e, (importInto s bytes).1 = .error e → (∀ cause, e ≠ .store cause) →
    (importInto s bytes).2 = s
  /-- Where the links have an order, making them meets no cycle. -/
  no_cycle_met : ∀ d ordered t, read bytes = .ok d →
    creationOrder (d.records.filter Atom.isLink) = .ok ordered →
    Transfer.addNodes ⟨s, ∅, 0⟩ (d.records.filter Atom.isNode) = (.ok (), t) →
    ∀ id, (t.addLinks d.known ordered).1 ≠ .error (.cyclicReference id)
  /-- Records without a cycle are refused exactly when there are more of them than there is room. -/
  error_iff : ∀ d, read bytes = .ok d → ¬ Cyclic (d.records.filter Atom.isLink) →
    ∀ e, (importInto s bytes).1 = .error e ↔ ∃ limit, s.limit = some limit ∧
      limit < s.size + d.records.length ∧ e = .store (.exhausted limit)
  /-- The store then holds copies of as many records as there was room for: of the nodes in the order
  of the document, and of the links behind what they reference. -/
  cut : ∀ d limit, read bytes = .ok d → (importInto s bytes).1 = .error (.store (.exhausted limit)) →
    ∃ ordered f, creationOrder (d.records.filter Atom.isLink) = .ok ordered ∧
      ordered.Perm (d.records.filter Atom.isLink) ∧ ReferencesFirst ordered ∧
      HoldsCopies s (importInto s bytes).2 d.records
        ((d.records.filter Atom.isNode ++ ordered).take (limit - s.size)) f

/-- An import that fails leaves the store as it was, unless it has filled it up. -/
theorem importInto_atomic {s : Store} (h : s.Reachable) (bytes : ByteArray) :
    ImportsAtomically s bytes := by
  have hsize : ∀ {n}, s.limit = some n → s.size ≤ n := h.size_le
  constructor
  · intro e he hcause
    cases hread : read bytes with
    | error fault => rw [importInto, hread]
    | ok d =>
      rw [importInto_of_read hread] at he ⊢
      cases horder : creationOrder (d.records.filter Atom.isLink) with
      | error id => rw [recreate_of_error horder]
      | ok ordered =>
        obtain ⟨limit, -, -, rfl⟩ :=
          (recreate_eq_error_iff h.sound hsize (read_ids hread) horder).mp he
        -- Once the links have an order only a full store can be the cause.
        exact absurd rfl (hcause (.exhausted limit))
  · intro d ordered t hread horder hadd id hlinks
    -- The error would be that of the whole reading, which has found an order for the links.
    have hcyclic : (recreate s d).1 = .error (.cyclicReference id) := by
      rw [recreate, horder]
      simp only [hadd]
      rw [← Document.known]
      rcases hloop : t.addLinks d.known ordered with ⟨outcome, after⟩
      rw [hloop] at hlinks
      cases hlinks
      rfl
    rw [recreate_eq_cyclicReference_iff h.sound hsize (read_ids hread), horder] at hcyclic
    cases hcyclic
  · intro d hread hacyclic e
    have hids := read_ids hread
    obtain ⟨ordered, horder⟩ := (exists_creationOrder_iff (nodup_link_ids hids)).mpr hacyclic
    rw [importInto_of_read hread]
    exact recreate_eq_error_iff h.sound hsize hids horder
  · intro d limit hread herror
    have hids := read_ids hread
    rw [importInto_of_read hread] at herror ⊢
    cases horder : creationOrder (d.records.filter Atom.isLink) with
    | error id =>
      rw [recreate_of_error horder] at herror
      cases herror
    | ok ordered =>
      obtain ⟨other, hl, hfull, heq⟩ :=
        (recreate_eq_error_iff h.sound hsize hids horder).mp herror
      cases heq
      obtain ⟨t, hrecreate, ht⟩ := recreate_of_full h.sound hl (hsize hl) hids hfull horder
      rw [hrecreate]
      exact ⟨ordered, t.rename, rfl, (creationOrder_sound horder).1,
        referencesFirst_of_ok (nodup_link_ids hids) horder, ht.holdsCopies h.sound hids horder⟩

/-- A store with one atom and room for two more takes a node and the link that references it from a
snapshot of three records. -/
theorem importInto_atomic_mixed :
    ∃ header text d made f,
      write ((Store.empty none).run mixedOperations).2 0 Timestamp.epoch = .ok (header, text) ∧
      read (String.ofList text).toUTF8 = .ok d ∧
      (importInto ((Store.empty (some 3)).run [.createNode .concept none]).2
        (String.ofList text).toUTF8).1 = .error (.store (.exhausted 3)) ∧
      made.map Atom.id = [1, 4] ∧
      HoldsCopies ((Store.empty (some 3)).run [.createNode .concept none]).2
        (importInto ((Store.empty (some 3)).run [.createNode .concept none]).2
          (String.ofList text).toUTF8).2 d.records made f := by
  have hwrite := write_of_isOk (s := ((Store.empty none).run mixedOperations).2) (by decide) 0
    Timestamp.epoch
  have hread := read_of_write ⟨none, mixedOperations, rfl⟩ (by decide) (by decide) hwrite
  have hcount : 3 < ((Store.empty (some 3)).run [.createNode .concept none]).2.size
      + (documentOf ((Store.empty none).run mixedOperations).2 0
        Timestamp.epoch).written.records.length := by decide
  have hnodes : ((documentOf ((Store.empty none).run mixedOperations).2 0
      Timestamp.epoch).written.records.filter Atom.isNode).map Atom.id = [1] := by decide
  have hlinks : (creationOrder ((documentOf ((Store.empty none).run mixedOperations).2 0
      Timestamp.epoch).written.records.filter Atom.isLink)).map (List.map Atom.id)
      = .ok [4, 3] := by decide
  have hatomic := importInto_atomic
    (s := ((Store.empty (some 3)).run [.createNode .concept none]).2) ⟨_, _, rfl⟩
    (String.ofList (documentOf ((Store.empty none).run mixedOperations).2 0
      Timestamp.epoch).chars).toUTF8
  generalize (documentOf ((Store.empty none).run mixedOperations).2 0 Timestamp.epoch).written = d at *
  have hacyclic : ¬ Cyclic (d.records.filter Atom.isLink) := by
    rw [← exists_creationOrder_iff (nodup_link_ids (read_ids hread))]
    cases horder : creationOrder (d.records.filter Atom.isLink) with
    | error id => simp [horder, Except.map] at hlinks
    | ok ordered => exact ⟨ordered, rfl⟩
  have hfull := (hatomic.error_iff d hread hacyclic (.store (.exhausted 3))).mpr
    ⟨3, rfl, hcount, rfl⟩
  obtain ⟨ordered, f, horder, -, -, hholds⟩ := hatomic.cut d 3 hread hfull
  refine ⟨_, _, d, _, f, hwrite, hread, hfull, ?_, hholds⟩
  rw [horder] at hlinks
  rw [List.map_take, List.map_append, hnodes, Except.ok.inj hlinks]
  rfl

end Snapshot

end BeliefGraph
