import BeliefGraph.Proofs.Store.Indexes

/-!
# Links that reference an id, by the index and by a scan

`Store.incoming` looks up the links filed under an id; a scan goes over all atoms. Deleting an atom
forgets the links filed under its id while they still reference it, so a look-up can miss links that a
scan finds. It never finds more, and it misses none where nothing was deleted under the id, or where each
link that references it was made after that.
-/

namespace BeliefGraph

/-- The links that reference an id, by a scan. -/
def Store.scanIncoming (s : Store) (id : Id) : List Atom :=
  s.query fun a => a.isLink && a.references id

variable {h : List Event} {s : Store}

/-- The scan for an id finds the atoms that reference it. -/
theorem Store.mem_scanIncoming {id : Id} {a : Atom} :
    a ∈ s.scanIncoming id ↔ a ∈ s.atoms ∧ id ∈ a.outgoing := by
  rw [Store.scanIncoming, Store.query, List.mem_filter, Bool.and_eq_true, Atom.references,
    List.contains_iff_mem]
  constructor
  · rintro ⟨ha, -, hid⟩
    exact ⟨ha, hid⟩
  · rintro ⟨ha, hid⟩
    exact ⟨ha, Atom.isLink_of_mem_outgoing hid, hid⟩

/-- A link is filed under an id that it references unless this id was deleted after the link was made. -/
theorem Indexed.mem_referrers_iff (hi : Indexed h s) (hs : s.Sound) {id : Id} {a : Atom}
    (ha : a ∈ s.atoms) :
    a.id ∈ s.referrers.ids id ↔ id ∈ a.outgoing ∧ MadeAfterDeletion h id a.id := by
  rw [hi.referrers, hs.mem_atoms.mp ha]
  simp

/-- What a look-up finds is what a scan finds, less what is not filed. -/
theorem Indexed.incoming_eq_filter (hi : Indexed h s) (hs : s.Sound) (id : Id) :
    s.incoming id = (s.scanIncoming id).filter fun a => decide (a.id ∈ s.referrers.ids id) := by
  rw [Store.scanIncoming, Store.query, List.filter_filter]
  refine hs.resolveAll_eq_query (Index.pairwise_ids s.referrers id) fun a ha => ?_
  rw [Bool.and_eq_true, decide_eq_true_eq, Bool.and_eq_true, Atom.references, List.contains_iff_mem,
    iff_self_and]
  intro hfiled
  have hid := ((hi.mem_referrers_iff hs (hs.mem_atoms.mpr ha)).mp hfiled).1
  exact ⟨Atom.isLink_of_mem_outgoing hid, hid⟩

/-- How the look-up of an id relates to the scan for it. -/
structure LookUpAgainstScan (h : List Event) (s : Store) (id : Id) : Prop where
  sublist : (s.incoming id).Sublist (s.scanIncoming id)
  eq_iff : s.incoming id = s.scanIncoming id
    ↔ ∀ a ∈ s.atoms, id ∈ a.outgoing → MadeAfterDeletion h id a.id
  eq_of_not_deleted : (∀ e ∈ h, ¬ e.Deletes id) → s.incoming id = s.scanIncoming id

/-- The look-up finds what the scan does exactly if each link was made after the last deletion of the id.
-/
theorem Indexed.incoming_eq_iff (hi : Indexed h s) (hs : s.Sound) (id : Id) :
    s.incoming id = s.scanIncoming id
      ↔ ∀ a ∈ s.atoms, id ∈ a.outgoing → MadeAfterDeletion h id a.id := by
  -- the look-up drops from the scan the links that are not filed: it is the scan if all are
  rw [hi.incoming_eq_filter hs, List.filter_eq_self]
  constructor
  · intro hall a ha hid
    have hfiled := hall a (Store.mem_scanIncoming.mpr ⟨ha, hid⟩)
    exact ((hi.mem_referrers_iff hs ha).mp (of_decide_eq_true hfiled)).2
  · intro hall a ha
    obtain ⟨ha, hid⟩ := Store.mem_scanIncoming.mp ha
    exact decide_eq_true ((hi.mem_referrers_iff hs ha).mpr ⟨hid, hall a ha hid⟩)

/-- Where nothing was deleted under an id, nothing has to be made after that. -/
theorem madeAfterDeletion_of_not_deleted {id : Id} (hkept : ∀ e ∈ h, ¬ e.Deletes id) (x : Id) :
    MadeAfterDeletion h id x := by
  rintro before d after rfl hd
  exact absurd hd (hkept d (by simp))

/-- Whatever operations a store has seen, a look-up finds the links of a scan that were made after the
last deletion of the id. -/
theorem Store.run_lookUp_against_scan (limit : Option Nat) (ops : List Operation) (id : Id) :
    LookUpAgainstScan ((Store.empty limit).run ops).1 ((Store.empty limit).run ops).2 id := by
  have hi := Indexed.run limit ops
  have hs := (Store.Sound.empty limit).run ops
  have heq := hi.incoming_eq_iff hs id
  refine ⟨?_, heq, fun hkept => heq.mpr fun a _ _ => madeAfterDeletion_of_not_deleted hkept a.id⟩
  rw [hi.incoming_eq_filter hs]
  exact List.filter_sublist

/-- A node is deleted while a link references it. -/
def danglingOperations : List Operation :=
  [.createNode .concept none, .createLink .list (.one 1 (by decide)), .delete 1]

/-- The link still references the id, so the scan finds it, and the look-up does not. -/
theorem Store.lookUp_misses_link :
    (((Store.empty none).run danglingOperations).2.scanIncoming 1).map Atom.id = [2] ∧
      ((Store.empty none).run danglingOperations).2.incoming 1 = [] := by
  decide

/-! ## Ids under which nothing is missing -/

namespace Store

/-- Each link that references an id is filed under it. -/
def Files (s : Store) (id : Id) : Prop :=
  ∀ x, x ∈ s.referrers.ids id ↔ ∃ a, s.get? x = some a ∧ id ∈ a.outgoing

/-- Where all links are filed the look-up is the scan. -/
theorem Files.incoming_eq {id : Id} (h : s.Files id) (hs : s.Sound) :
    s.incoming id = s.scanIncoming id := by
  refine hs.resolveAll_eq_query (Index.pairwise_ids s.referrers id) fun a ha => ?_
  rw [h, ha, Bool.and_eq_true, Atom.references, List.contains_iff_mem]
  simp only [Option.some.injEq, exists_eq_left', iff_and_self]
  exact Atom.isLink_of_mem_outgoing

/-- A new atom is filed under what it references. -/
theorem Files.place {id : Id} (h : s.Files id) (hs : s.Sound) (kind : Kind) (shape : Shape) :
    (s.place kind shape).Files id := by
  intro x
  rw [s.mem_referrers_place, h, s.get?_place]
  by_cases hx : x = s.nextId
  · rw [if_pos hx, hx, hs.get?_of_le (Nat.le_refl _)]
    simp [Atom.outgoing, Atom.new]
  · simp [hx]

/-- What is filed depends on what is referenced, and not on the values of atoms. -/
theorem Files.modify {id : Id} (h : s.Files id) (x : Id) (f : Truth → Truth)
    (g : Attention → Attention) : (s.modify x f g).Files id := by
  intro y
  have hfiled : y ∈ (s.modify x f g).referrers.ids id ↔ _ := h y
  rw [hfiled, get?_modify]
  split
  · simp [Atom.outgoing]
  · rfl

/-- To make an atom and write its values at once leaves the links to an id filed. -/
theorem Files.place_modify {id : Id} (h : s.Files id) (hs : s.Sound) (kind : Kind) (shape : Shape)
    (f : Truth → Truth) (g : Attention → Attention) :
    ((s.place kind shape).modify s.nextId f g).Files id :=
  (h.place hs kind shape).modify s.nextId f g

/-- A deleted atom is no longer filed under what it references. -/
theorem Files.without {id : Id} (h : s.Files id) {a : Atom} (ha : s.get? a.id = some a)
    (hid : id ≠ a.id) : (s.without a).Files id := by
  intro x
  rw [s.mem_referrers_without, h, s.get?_without]
  by_cases hx : x = a.id
  · subst hx
    simp +contextual [ha]
  · simp [hx, hid]

/-- Nothing was ever deleted under a live id. -/
theorem Reachable.files (h : s.Reachable) {id : Id} (hid : s.contains id = true) : s.Files id := by
  obtain ⟨limit, ops, rfl⟩ := h
  intro x
  rw [(Indexed.run limit ops).referrers, and_iff_left]
  refine madeAfterDeletion_of_not_deleted (fun e he hdeletes => ?_) x
  have hnone := ((Recorded.run limit ops).spent e he id (.inr hdeletes)).2
  rw [contains, hnone] at hid
  exact Bool.false_ne_true hid

end Store

end BeliefGraph
