import BeliefGraph.Proofs.Inference.Backward
import BeliefGraph.Proofs.Snapshot.Refusal
import BeliefGraph.Space.Basic

/-!
# Chaining in a store that was read back

A snapshot that is read into a fresh store keeps the order of the links, as long as each of them only
references links that are older. Their references are renamed one to one, so the edges of both stores
are the same under other names, and chaining does the same in both (`chaining_read_back`).

For backward chaining the indexes have to be exact as well. They are for live ids of the store that was
written, under which nothing was deleted, and for all ids of the store that was read, since an import
deletes nothing (`recreate_induction`).
-/

namespace BeliefGraph

open Set

/-! ## Exact indexes -/

namespace Store

variable {s : Store}

/-- Each link is filed under all that it references. -/
def FilesAll (s : Store) : Prop :=
  ∀ id x, x ∈ s.referrers.ids id ↔ ∃ a, s.get? x = some a ∧ id ∈ a.outgoing

/-- The indexes of an empty store file all links. -/
theorem FilesAll.empty (limit : Option Nat) : (Store.empty limit).FilesAll := by
  intro id x
  simp [Store.empty, get?, Index.mem_ids_empty]

/-- They still do after an atom was made and its values were set. -/
theorem FilesAll.place_modify (h : s.FilesAll) (hs : s.Sound) (kind : Kind) (shape : Shape)
    (f : Truth → Truth) (g : Attention → Attention) :
    ((s.place kind shape).modify s.nextId f g).FilesAll :=
  fun id => Files.place_modify (h id) hs kind shape f g

/-- Where all links are filed, the index names the links that reference an id, live or not. -/
theorem FilesAll.incoming_eq (h : s.FilesAll) (hs : s.Sound) (id : Id) :
    s.incoming id = s.scanIncoming id :=
  Files.incoming_eq (h id) hs

/-- In a store that operations lead to, the index names the links that reference a live id. -/
theorem Reachable.incoming_eq (h : s.Reachable) {id : Id} (hid : s.contains id = true) :
    s.incoming id = s.scanIncoming id :=
  (h.files hid).incoming_eq h.sound

end Store

namespace Snapshot

/-! ## What imports keep -/

/-- An import makes atoms, writes their values and reserves ids, and does nothing else. -/
theorem recreate_induction {P : Store → Prop}
    (hadd : ∀ s kind shape f g, P s → P ((s.place kind shape).modify s.nextId f g))
    (hreserve : ∀ s, P s → P s.reserve.2) {s : Store} (hs : P s) (d : Document) :
    P (recreate s d).2 := by
  have hadd' : ∀ t : Transfer, ∀ a ∈ d.records, ∀ shape, P t.store → P (t.withAtom a shape).store :=
    fun t a _ shape ht => hadd t.store a.kind shape (fun _ => a.truth) (fun _ => a.attention) ht
  have hreserve' : ∀ (t : Transfer) (id : Id), id ∉ d.known → t.target? id = none →
      (∃ a ∈ d.records, id ∈ a.outgoing) → P t.store → P (t.reserve id).store :=
    fun t _ _ _ _ ht => hreserve t.store ht
  have hnode : d.records.filter Atom.isNode ⊆ d.records := List.filter_sublist.subset
  -- Reading stops anywhere, but what it does to the store is one of these two steps at a time.
  have hnodes := Transfer.addNodes_induction (P := fun t => P t.store) (t := ⟨s, ∅, 0⟩) hadd' hs hnode
  rw [recreate, ← Document.known]
  split
  · exact hs
  · next ordered horder =>
    have hordered : ordered ⊆ d.records := fun a ha =>
      (perm_of_order horder).subset (List.mem_append_right _ ha)
    simp only
    split
    · next heq =>
      rw [heq] at hnodes
      exact hnodes
    · next t heq =>
      rw [heq] at hnodes
      have hlinks := Transfer.addLinks_induction (P := fun t => P t.store) hadd' hreserve' hnodes
        hordered
      split
      · next heq =>
        rw [heq] at hlinks
        exact hlinks
      · next heq =>
        rw [heq] at hlinks
        exact hlinks

/-- The indexes of a store that was read are exact. -/
theorem filesAll_recreate (d : Document) : (recreate (Store.empty none) d).2.FilesAll := by
  have hkept := recreate_induction (P := fun s => s.Sound ∧ s.FilesAll)
    (fun s kind shape f g h => ⟨(h.1.place _ _).modify _ _ _, h.2.place_modify h.1 kind shape f g⟩)
    (fun s h => ⟨h.1.reserve, h.2⟩) ⟨Store.Sound.empty none, Store.FilesAll.empty none⟩ d
  exact hkept.2

/-! ## The edges of a store that was read -/

/-- Renaming an atom renames the edge that it is. -/
theorem ofAtom?_rename (f : Id → Id) (a : Atom) :
    Edge.ofAtom? (a.rename f) = (Edge.ofAtom? a).map (Edge.rename f f) := by
  obtain ⟨id, kind, shape, truth, attention⟩ := a
  simp only [Edge.ofAtom?, Atom.rename, Atom.outgoing]
  cases shape with
  | node label => cases kind.isChainable <;> rfl
  | link outgoing =>
    rcases outgoing with _ | ⟨x, _ | ⟨y, _ | ⟨z, rest⟩⟩⟩ <;> cases kind.isChainable <;> rfl

/-- A node states nothing. -/
theorem ofAtom?_of_isNode {a : Atom} (h : a.isNode = true) : Edge.ofAtom? a = none := by
  rw [Option.eq_none_iff_forall_ne_some]
  intro e hedge
  have hlink := Atom.isLink_of_shape (Edge.ofAtom?_eq_some.mp hedge).2.2.1
  exact Atom.not_isLink_of_isNode h hlink

/-- Only links are edges. -/
theorem edges_eq_links (s : Store) : s.edges = (s.query Atom.isLink).filterMap Edge.ofAtom? := by
  rw [Store.edges, Store.query, List.filterMap_filter]
  refine List.filterMap_congr fun a _ => ?_
  cases hnode : a.isNode with
  | true => rw [ofAtom?_of_isNode hnode, ite_self]
  | false => rw [if_pos (Atom.isLink_of_not_isNode hnode)]

/-- The edges of a store that holds nothing but nodes and links under new ids are those of the links. -/
theorem edges_of_atoms_eq {s : Store} {nodes links : List Atom} {f : Id → Id}
    (h : s.atoms = (nodes ++ links).map (Atom.rename f)) (hnodes : ∀ a ∈ nodes, a.isNode = true) :
    s.edges = (links.filterMap Edge.ofAtom?).map (Edge.rename f f) := by
  have hnone : nodes.filterMap Edge.ofAtom? = [] :=
    List.filterMap_eq_nil_iff.mpr fun a ha => ofAtom?_of_isNode (hnodes a ha)
  have hrename : Edge.ofAtom? ∘ Atom.rename f = Option.map (Edge.rename f f) ∘ Edge.ofAtom? :=
    funext fun a => ofAtom?_rename f a
  rw [Store.edges, h, List.filterMap_map, hrename]
  refine List.map_filterMap.symm.trans ?_
  rw [List.filterMap_append, hnone, List.nil_append]

/-- Links that only reference older links stand behind them. -/
theorem referencesFirst_of_older {s : Store} (hs : s.Sound)
    (holder : ∀ a ∈ s.query Atom.isLink, ∀ b ∈ s.query Atom.isLink, b.id ∈ a.outgoing → b.id < a.id) :
    ReferencesFirst (s.query Atom.isLink) := by
  intro front a behind hsplit b hb hid
  have ha : a ∈ s.query Atom.isLink := hsplit ▸ List.mem_append_right _ List.mem_cons_self
  have hlt := holder a ha b hb hid
  have hsorted : (front ++ a :: behind).Pairwise Store.ById := hsplit ▸ hs.pairwise_atoms.filter _
  rw [hsplit] at hb
  rcases List.mem_append.mp hb with hb | hb
  · exact hb
  · rcases List.mem_cons.mp hb with rfl | hb
    · exact absurd hlt (lt_irrefl _)
    · have hgt := (List.pairwise_cons.mp (List.pairwise_append.mp hsorted).2.1).1 b hb
      exact absurd hlt (Nat.lt_asymm hgt)

/-- What was read of the snapshot of a store, as far as chaining goes. -/
structure ReadBack (s target : Store) (remap : Std.TreeMap Id Id) (f : Id → Id) : Prop where
  isomorphic : s.Isomorphic target remap f
  opened : target.Open
  edges : target.edges = s.edges.map (Edge.rename f f)
  filesAll : target.FilesAll

/-- The snapshot of a store without a cycle among its links is read back, with its links in order. -/
theorem exists_readBack {s : Store} (hs : s.Reachable) (hids : s.nextId ≤ UInt64.size)
    (holder : ∀ a ∈ s.query Atom.isLink, ∀ b ∈ s.query Atom.isLink, b.id ∈ a.outgoing → b.id < a.id)
    (spaceId : SpaceId) {time : Timestamp} (htime : time.isValid = true) :
    ∃ header text report target f, write s spaceId time = .ok (header, text) ∧
      importInto (Store.empty none) (String.ofList text).toUTF8 = (.ok report, target) ∧
      ReadBack s target report.remap f := by
  have hempty := Store.Sound.empty none
  have horder : creationOrder (s.query Atom.isLink) = .ok (s.query Atom.isLink) :=
    creationOrder_of_referencesFirst (query_link_ids hs.sound)
      (referencesFirst_of_older hs.sound holder)
  have hwrite := write_of_isOk (by rw [horder]; rfl) spaceId time
  have hreadable := documentOf_readable hs.sound hids (hs.inWords hids) spaceId htime
  have hperm := documentOf_perm s spaceId time
  rw [← documentOf_links s spaceId time] at horder
  obtain ⟨t, hrecreate, ht⟩ := recreate_of_order (d := (documentOf s spaceId time).written)
    hempty hreadable.ids (Store.hasRoomFor_of_unlimited rfl _) horder
  have hmade : ∀ a, a ∈ (documentOf s spaceId time).records.filter Atom.isNode
      ++ (documentOf s spaceId time).records.filter Atom.isLink ↔ s.get? a.id = some a := by
    intro a
    rw [(perm_of_order horder).mem_iff, hperm.mem_iff, hs.sound.mem_atoms]
  -- References lead to older links, so the links are made in the order in which they were, and the
  -- edges come in the same order.
  have hedges : t.store.edges = s.edges.map (Edge.rename t.rename t.rename) := by
    rw [edges_of_atoms_eq (ht.atoms_eq hempty) fun a ha => (List.mem_filter.mp ha).2, edges_eq_links,
      ← documentOf_links s spaceId time]
  have hfiles := filesAll_recreate (documentOf s spaceId time).written
  rw [hrecreate] at hfiles
  refine ⟨_, _, t.report (documentOf s spaceId time).written, t.store, t.rename, hwrite, ?_,
    ht.isomorphic hs.sound hmade (documentOf_known hs.sound spaceId time), ⟨ht.sound, ht.limit⟩, hedges,
    hfiles⟩
  rw [importInto, read_of_write hs hids htime hwrite]
  exact hrecreate

/-! ## Chaining in both stores -/

namespace ReadBack

variable {s target : Store} {remap : Std.TreeMap Id Id} {f : Id → Id}

/-- The name of a link in the store that was read: a link made later has the id that is next there. -/
def linkName (s target : Store) (f : Id → Id) (id : Id) : Id :=
  if id < s.nextId then f id else target.nextId + (id - s.nextId)

/-- The link of an edge is live, and the ends of an edge are mentioned. -/
theorem mentions_of_mem_edges (hs : s.Sound) {e : Edge} (he : e ∈ s.edges) :
    s.contains e.link = true ∧ e.statement.Within {id | s.Mentions id} := by
  obtain ⟨a, ha, hedge⟩ := Store.mem_edges.mp he
  obtain ⟨-, -, hshape, hlink, -⟩ := Edge.ofAtom?_eq_some.mp hedge
  have houtgoing : a.outgoing = [e.statement.source, e.statement.target] := by
    rw [Atom.outgoing, hshape]
    rfl
  refine ⟨?_, .inr ⟨a, ha, by simp [houtgoing]⟩, .inr ⟨a, ha, by simp [houtgoing]⟩⟩
  rw [← hlink, Store.contains, hs.mem_atoms.mp ha, Option.isSome_some]

/-- The id of a live atom has been handed out. -/
theorem lt_nextId_of_contains (hs : s.Sound) {id : Id} (hid : s.contains id = true) :
    id < s.nextId := by
  obtain ⟨a, ha⟩ := Option.isSome_iff_exists.mp hid
  exact hs.issued ha

/-- A live link has the name that its id has. -/
theorem linkName_of_contains (hs : s.Sound) {id : Id} (hid : s.contains id = true) :
    linkName s target f id = f id :=
  if_pos (lt_nextId_of_contains hs hid)

/-- Both stores have the same edges under other names, and name the links to come alike. -/
theorem mirrors (h : ReadBack s target remap f) (hs : s.Open) {goal : Option Id}
    (hgoal : ∀ t, goal = some t → s.contains t = true) :
    s.Mirrors target (linkName s target f) f {id | s.Mentions id} goal where
  source := hs
  image := h.opened
  edges := by
    rw [h.edges]
    refine List.map_congr_left fun e he => ?_
    rw [Edge.rename, Edge.rename, linkName_of_contains hs.sound (mentions_of_mem_edges hs.sound he).1]
  ends e he := (mentions_of_mem_edges hs.sound he).2
  links e he g hg heq := by
    have he := (mentions_of_mem_edges hs.sound he).1
    have hg := (mentions_of_mem_edges hs.sound hg).1
    rw [linkName_of_contains hs.sound he, linkName_of_contains hs.sound hg] at heq
    exact h.isomorphic.injective (.inl he) (.inl hg) heq
  next k := by
    -- Links that a run makes are named by their distance from the id that is next at its start.
    rw [linkName, if_neg (Nat.not_lt.mpr (Nat.le_add_right _ _)), Nat.add_sub_cancel_left]
  target t ht := by
    have hlive := hgoal t ht
    refine ⟨.inl hlive, lt_nextId_of_contains hs.sound hlive,
      lt_nextId_of_contains h.opened.sound (h.isomorphic.live.mapsTo hlive), fun e he => ?_⟩
    have he := (mentions_of_mem_edges hs.sound he).1
    rw [linkName_of_contains hs.sound he]
    exact h.isomorphic.injective.eq_iff (.inl he) (.inl hlive)

/-- Both stores are searched alike. -/
theorem searchedAlike (h : ReadBack s target remap f) (hs : s.Reachable) :
    s.SearchedAlike target f {id | s.Mentions id} where
  sound := hs.sound
  edges := h.edges
  ends e he := (mentions_of_mem_edges hs.sound he).2
  live id hid := .inl hid
  get? id hid := by
    cases hget : s.get? id with
    | none => exact h.isomorphic.dangling id hid hget
    | some a => exact h.isomorphic.image id a hget
  incoming id hid := hs.incoming_eq hid
  image id _ := h.filesAll.incoming_eq h.opened.sound (f id)

end ReadBack

/-- A store without a limit in which links reference older links only is written and read back, and
chaining does the same in both stores. Forward chaining, without a target or toward a live one, makes
links of the same kinds and truths in the same order, between ends that are renamed. Backward chaining
from a live goal finds the same atoms, renamed, in the same order. -/
theorem chaining_read_back {s : Store} (hs : s.Reachable) (hlimit : s.limit = none)
    (hids : s.nextId ≤ UInt64.size)
    (holder : ∀ a ∈ s.query Atom.isLink, ∀ b ∈ s.query Atom.isLink, b.id ∈ a.outgoing → b.id < a.id)
    (spaceId : SpaceId) {time : Timestamp} (htime : time.isValid = true) :
    ∃ header text report target f, write s spaceId time = .ok (header, text) ∧
      importInto (Store.empty none) (String.ofList text).toUTF8 = (.ok report, target) ∧
      s.Isomorphic target report.remap f ∧
      ∀ space space' : Space, space.store = s → space'.store = target →
        (∀ goal rounds, (∀ t, goal = some t → s.contains t = true) →
          ∃ made copies, (space.forward goal rounds).1 = .ok made ∧
            (space'.forward (goal.map f) rounds).1 = .ok copies ∧
            List.Forall₂ (Atom.Copies f) made copies) ∧
        ∀ goal rounds, s.contains goal = true →
          ∃ found, (space.backward goal rounds).1 = .ok found ∧
            (space'.backward (f goal) rounds).1 = .ok (found.map (Atom.rename f)) := by
  obtain ⟨header, text, report, target, f, hwrite, himport, hback⟩ :=
    exists_readBack hs hids holder spaceId htime
  refine ⟨header, text, report, target, f, hwrite, himport, hback.isomorphic, ?_⟩
  rintro space space' rfl rfl
  refine ⟨fun goal rounds hgoal => ?_, fun goal rounds hgoal => ?_⟩
  · have hmirrors : space.startRun.store.Mirrors space'.startRun.store
        (ReadBack.linkName space.store space'.store f) f {id | space.store.Mentions id} goal :=
      hback.mirrors ⟨hs.sound, hlimit⟩ hgoal
    obtain ⟨hok, hok', hcopies⟩ :=
      hmirrors.forward hback.isomorphic.injective rfl rfl .nil rounds
    refine ⟨_, _, ?_, ?_, hcopies⟩
    · rw [Space.forward, Space.finishRun, Progress.result, hok]
    · rw [Space.forward, Space.finishRun, Progress.result, hok']
  · have hfound := (hback.searchedAlike hs).backward hback.isomorphic.injective hgoal rounds
    have hgoal' : space'.store.contains (f goal) = true := hback.isomorphic.live.mapsTo hgoal
    refine ⟨(space.store.backward goal rounds).found, ?_, ?_⟩
    · rw [Space.backward, if_pos hgoal]
    · rw [Space.backward, if_pos hgoal', ← hfound]

/-- A link is made before the nodes, an atom is deleted, and the id that is handed out next is
referenced. -/
def awaitingOperations : List Operation :=
  [.createLink .inheritance ⟨[5, 4], by decide, by decide⟩, .createNode .concept (some "a"),
    .createLink .implication ⟨[4, 2], by decide, by decide⟩, .createNode .concept none, .delete 4]

/-- A space with nothing but a store. -/
def spaceOn (store : Store) : Space := { Space.ofSettings {} with store }

/-- The link that joins the two gets the id that the first one references, and its copy does not. -/
theorem chaining_read_back_awaiting :
    ∃ header text report target f made copies,
      write ((Store.empty none).run awaitingOperations).2 0 Timestamp.epoch = .ok (header, text) ∧
      importInto (Store.empty none) (String.ofList text).toUTF8 = (.ok report, target) ∧
      ((spaceOn ((Store.empty none).run awaitingOperations).2).forward none 2).1 = .ok made ∧
      made.map (fun a => (a.id, a.shape)) = [(5, .link [5, 2])] ∧
      ((spaceOn target).forward none 2).1 = .ok copies ∧ List.Forall₂ (Atom.Copies f) made copies := by
  have hs : ((Store.empty none).run awaitingOperations).2.Reachable := ⟨none, awaitingOperations, rfl⟩
  have htime : Timestamp.epoch.isValid = true := by decide
  obtain ⟨header, text, report, target, f, hwrite, himport, -, hchain⟩ :=
    chaining_read_back hs rfl (by decide) (by decide) 0 htime
  obtain ⟨made, copies, hmade, hcopies, hall⟩ :=
    (hchain (spaceOn ((Store.empty none).run awaitingOperations).2) (spaceOn target) rfl rfl).1
      none 2 nofun
  refine ⟨header, text, report, target, f, made, copies, hwrite, himport, hmade, ?_, hcopies, hall⟩
  have hshapes : ((spaceOn ((Store.empty none).run awaitingOperations).2).forward none 2).1.map
      (List.map fun a => (a.id, a.shape)) = .ok [(5, .link [5, 2])] := rfl
  rw [hmade] at hshapes
  exact Except.ok.inj hshapes

end Snapshot

end BeliefGraph
