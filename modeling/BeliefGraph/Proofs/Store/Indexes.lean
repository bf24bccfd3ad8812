import BeliefGraph.Proofs.Store.Contract

/-!
# What the indexes of a store hold

Both indexes are kept step by step, and both can be read off the atoms and the history. A labelled
node is filed under its kind and label. A link is filed under every id that it references, except that
deleting an atom forgets the links filed under its id so far: `MadeAfterDeletion` says which links an
id has left. No entry is kept without ids, and none names an atom that is gone.

The laws of `Index.add`, `Index.remove` and `Index.drop` come first, then the invariant `Indexed`
with its step, and last what look-ups by label and by reference answer in every store.
-/

namespace BeliefGraph

/-! ## Laws of an index -/

namespace Index

variable {κ : Type} [Ord κ]

/-- No key has an empty set. -/
def Tidy (index : Index κ) : Prop :=
  ∀ (key : κ) (set : Std.TreeSet Id), index[key]? = some set → set.isEmpty = false

/-- The ids under a key are those of its set, if it has one. -/
theorem mem_ids (index : Index κ) (key : κ) (id : Id) :
    id ∈ index.ids key ↔ ∃ set, index[key]? = some set ∧ id ∈ set := by
  rw [ids]
  cases index[key]? with
  | none => simp
  | some set => simp [Std.TreeSet.mem_toList]

/-- The ids under a key are listed in order and without repetition. -/
theorem pairwise_ids (index : Index κ) (key : κ) : (index.ids key).Pairwise (· < ·) := by
  rw [ids]
  cases index[key]? with
  | none => exact List.Pairwise.nil
  | some set =>
    exact (Std.TreeSet.ordered_toList (t := set)).imp fun h => Std.LawfulLTCmp.eq_lt_iff_lt.mp h

variable [Std.TransOrd κ]

/-- An index without keys has no ids. -/
theorem mem_ids_empty (key : κ) (id : Id) : id ∉ (∅ : Index κ).ids key := by
  rw [mem_ids]
  simp

/-- An index without keys is tidy. -/
theorem Tidy.empty : (∅ : Index κ).Tidy := by
  intro key set h
  simp at h

variable [Std.LawfulEqOrd κ] [DecidableEq κ]

/-- To add an id changes the set of its key alone. -/
theorem getElem?_add (index : Index κ) (key k : κ) (id : Id) :
    (index.add key id)[k]?
      = if k = key then some ((index[key]?.getD ∅).insert id) else index[k]? := by
  rw [add, Std.TreeMap.getElem?_alter]
  simp only [Std.LawfulEqCmp.compare_eq_iff_eq, eq_comm (a := key)]

/-- To remove an id changes the set of its key alone, and takes the key out with the last id. -/
theorem getElem?_remove (index : Index κ) (key k : κ) (id : Id) :
    (index.remove key id)[k]?
      = if k = key then index[key]?.bind (withoutId id) else index[k]? := by
  rw [remove, Std.TreeMap.getElem?_alter]
  simp only [Std.LawfulEqCmp.compare_eq_iff_eq, eq_comm (a := key)]

/-- To drop a key leaves all others. -/
theorem getElem?_drop (index : Index κ) (key k : κ) :
    (index.drop key)[k]? = if k = key then none else index[k]? := by
  rw [drop, Std.TreeMap.getElem?_erase]
  simp only [Std.LawfulEqCmp.compare_eq_iff_eq, eq_comm (a := key)]

/-- Filing adds one id under one key. -/
theorem mem_ids_add (index : Index κ) (key k : κ) (id x : Id) :
    x ∈ (index.add key id).ids k ↔ x ∈ index.ids k ∨ (k = key ∧ x = id) := by
  rw [mem_ids, mem_ids, getElem?_add]
  by_cases hk : k = key
  · subst hk
    cases index[k]? <;> simp [Std.TreeSet.mem_insert, or_comm, eq_comm (a := id)]
  · simp [hk]

/-- What is left of a set without an id are its other members; a set that would be empty is none. -/
theorem mem_withoutId {id x : Id} {set : Std.TreeSet Id} :
    (∃ rest, withoutId id set = some rest ∧ x ∈ rest) ↔ x ∈ set ∧ x ≠ id := by
  have herase : x ∈ set.erase id ↔ x ∈ set ∧ x ≠ id := by
    simp [Std.TreeSet.mem_erase, and_comm, eq_comm (a := id)]
  rw [← herase]
  simp only [withoutId]
  split
  · next h =>
    have := Std.TreeSet.not_mem_of_isEmpty (a := x) h
    simp [this]
  · simp

/-- Taking an id from under a key leaves all else. -/
theorem mem_ids_remove (index : Index κ) (key k : κ) (id x : Id) :
    x ∈ (index.remove key id).ids k ↔ x ∈ index.ids k ∧ ¬ (k = key ∧ x = id) := by
  rw [mem_ids, mem_ids, getElem?_remove]
  by_cases hk : k = key
  · subst hk
    cases index[k]? with
    | none => simp
    | some set => simp [mem_withoutId]
  · simp [hk]

/-- Behind a dropped key there are no ids; behind the others they are as before. -/
theorem mem_ids_drop (index : Index κ) (key k : κ) (x : Id) :
    x ∈ (index.drop key).ids k ↔ x ∈ index.ids k ∧ k ≠ key := by
  rw [mem_ids, mem_ids, getElem?_drop]
  by_cases hk : k = key <;> simp [hk]

/-- To add an id leaves no key with an empty set. -/
theorem Tidy.add {index : Index κ} (h : index.Tidy) (key : κ) (id : Id) :
    (index.add key id).Tidy := by
  intro k set hset
  rw [getElem?_add] at hset
  split at hset
  · cases hset
    exact Std.TreeSet.isEmpty_insert
  · exact h k set hset

/-- To remove an id leaves no key with an empty set, because an emptied set goes with its key. -/
theorem Tidy.remove {index : Index κ} (h : index.Tidy) (key : κ) (id : Id) :
    (index.remove key id).Tidy := by
  intro k set hset
  rw [getElem?_remove] at hset
  split at hset
  · obtain ⟨old, -, hold⟩ := Option.bind_eq_some_iff.mp hset
    simp only [withoutId] at hold
    split at hold
    · simp at hold
    · next hne =>
      cases hold
      exact Bool.eq_false_iff.mpr hne
  · exact h k set hset

/-- To drop a key leaves no other with an empty set. -/
theorem Tidy.drop {index : Index κ} (h : index.Tidy) (key : κ) : (index.drop key).Tidy := by
  intro k set hset
  rw [getElem?_drop] at hset
  split at hset
  · simp at hset
  · exact h k set hset

/-! Filing an id under several keys, and taking it from under them. -/

/-- An id that is added under several keys is found under each of them. -/
theorem mem_ids_foldl_add (keys : List κ) (index : Index κ) (k : κ) (id x : Id) :
    x ∈ (keys.foldl (fun index key => index.add key id) index).ids k ↔
      x ∈ index.ids k ∨ (k ∈ keys ∧ x = id) := by
  induction keys generalizing index with
  | nil => simp
  | cons key keys ih =>
    rw [List.foldl_cons, ih, mem_ids_add, List.mem_cons]
    tauto

/-- An id that is removed under several keys is found under none of them. -/
theorem mem_ids_foldl_remove (keys : List κ) (index : Index κ) (k : κ) (id x : Id) :
    x ∈ (keys.foldl (fun index key => index.remove key id) index).ids k ↔
      x ∈ index.ids k ∧ ¬ (k ∈ keys ∧ x = id) := by
  induction keys generalizing index with
  | nil => simp
  | cons key keys ih =>
    rw [List.foldl_cons, ih, mem_ids_remove, List.mem_cons]
    tauto

/-- Adding under several keys leaves no key with an empty set. -/
theorem Tidy.foldl_add {index : Index κ} (h : index.Tidy) (keys : List κ) (id : Id) :
    (keys.foldl (fun index key => index.add key id) index).Tidy := by
  induction keys generalizing index with
  | nil => exact h
  | cons key keys ih => exact ih (h.add key id)

/-- Removing under several keys leaves no key with an empty set. -/
theorem Tidy.foldl_remove {index : Index κ} (h : index.Tidy) (keys : List κ) (id : Id) :
    (keys.foldl (fun index key => index.remove key id) index).Tidy := by
  induction keys generalizing index with
  | nil => exact h
  | cons key keys ih => exact ih (h.remove key id)

end Index

/-! ## The indexes after an operation -/

namespace Store

/-- A new atom is filed under its own label key, if it has one. -/
theorem mem_labelled_place (s : Store) (kind : Kind) (shape : Shape) (key : LabelKey) (x : Id) :
    x ∈ (s.place kind shape).labelled.ids key ↔
      x ∈ s.labelled.ids key ∨
        ((Atom.new s.nextId kind shape).labelKey? = some key ∧ x = s.nextId) := by
  simp only [place, file]
  cases (Atom.new s.nextId kind shape).labelKey? with
  | none => simp
  | some k =>
    rw [Index.mem_ids_add, Option.some.injEq, eq_comm (a := k)]
    rfl

/-- A deleted atom is taken out under its label key. -/
theorem mem_labelled_without (s : Store) (a : Atom) (key : LabelKey) (x : Id) :
    x ∈ (s.without a).labelled.ids key ↔
      x ∈ s.labelled.ids key ∧ ¬ (a.labelKey? = some key ∧ x = a.id) := by
  simp only [without, unfile]
  cases a.labelKey? with
  | none => simp
  | some k => rw [Index.mem_ids_remove, Option.some.injEq, eq_comm (a := k)]

/-- A new link is filed under each id that it references. -/
theorem mem_referrers_place (s : Store) (kind : Kind) (shape : Shape) (target x : Id) :
    x ∈ (s.place kind shape).referrers.ids target ↔
      x ∈ s.referrers.ids target ∨ (target ∈ shape.outgoing ∧ x = s.nextId) :=
  Index.mem_ids_foldl_add _ _ _ _ _

/-- Deleting an atom takes it from under what it references, and forgets what was filed under it. -/
theorem mem_referrers_without (s : Store) (a : Atom) (target x : Id) :
    x ∈ (s.without a).referrers.ids target ↔
      x ∈ s.referrers.ids target ∧ ¬ (target ∈ a.outgoing ∧ x = a.id) ∧ target ≠ a.id := by
  simp only [without, unfile]
  rw [Index.mem_ids_drop, Index.mem_ids_foldl_remove, and_assoc]

/-- Neither index has a key without ids. -/
structure Tidy (s : Store) : Prop where
  labelled : s.labelled.Tidy
  referrers : s.referrers.Tidy

/-- The indexes of a store without atoms are tidy. -/
theorem Tidy.empty (limit : Option Nat) : (Store.empty limit).Tidy :=
  ⟨Index.Tidy.empty, Index.Tidy.empty⟩

/-- Each step keeps both indexes tidy. -/
theorem Tidy.step {s after : Store} {op : Operation} {outcome : Except StoreError Answer}
    (h : s.Step op outcome after) (ht : s.Tidy) : after.Tidy := by
  cases h with
  | full => exact ht
  | missing => exact ht
  | made =>
    refine ⟨?_, ht.referrers.foldl_add _ _⟩
    simp only [place, file]
    split
    · exact ht.labelled.add _ _
    · exact ht.labelled
  | deleted =>
    refine ⟨?_, (ht.referrers.foldl_remove _ _).drop _⟩
    simp only [without, unfile]
    split
    · exact ht.labelled.remove _ _
    · exact ht.labelled
  | reserved => exact ⟨ht.labelled, ht.referrers⟩
  | written => exact ⟨ht.labelled, ht.referrers⟩

end Store

/-! ## The content of the indexes -/

/-- If the atom with an id was deleted, then another was made after that. -/
def MadeAfterDeletion (h : List Event) (id x : Id) : Prop :=
  ∀ before d after, h = before ++ d :: after → d.Deletes id → ∃ e ∈ after, e.made? = some x

/-- One more event keeps to this if it deletes no atom with the id, and the other atom was made by it or stood so
before. -/
theorem madeAfterDeletion_concat {h : List Event} {e : Event} {id x : Id} :
    MadeAfterDeletion (h ++ [e]) id x ↔
      ¬ e.Deletes id ∧ (e.made? = some x ∨ MadeAfterDeletion h id x) := by
  constructor
  · intro hx
    have hlast : ¬ e.Deletes id := fun he => by
      obtain ⟨_, hmem, -⟩ := hx h e [] rfl he
      simp at hmem
    refine ⟨hlast, ?_⟩
    by_cases hmade : e.made? = some x
    · exact .inl hmade
    · refine .inr fun before d after heq hd => ?_
      obtain ⟨m, hm, hmx⟩ := hx before d (after ++ [e]) (by simp [heq]) hd
      rcases List.mem_append.mp hm with hm | hm
      · exact ⟨m, hm, hmx⟩
      · rw [List.mem_singleton.mp hm] at hmx
        exact absurd hmx hmade
  · rintro ⟨hlast, hx⟩ before d after heq hd
    -- A deletion by the last event is excluded; any other has the last event behind it.
    rcases List.eq_nil_or_concat after with rfl | ⟨after, m, rfl⟩
    · obtain ⟨-, hm⟩ := List.append_inj' heq rfl
      cases hm
      exact absurd hd hlast
    · have heq : h ++ [e] = (before ++ d :: after) ++ [m] := by simpa using heq
      obtain ⟨hh, hm⟩ := List.append_inj' heq rfl
      cases hm
      rcases hx with hx | hx
      · exact ⟨e, by simp, hx⟩
      · obtain ⟨m, hm, hmx⟩ := hx before d after hh hd
        exact ⟨m, by simp [hm], hmx⟩

/-- What the indexes hold, by the atoms and the history. -/
structure Indexed (h : List Event) (s : Store) : Prop where
  labelled : ∀ key x, x ∈ s.labelled.ids key ↔ ∃ a, s.get? x = some a ∧ a.labelKey? = some key
  referrers : ∀ target x, x ∈ s.referrers.ids target ↔
    (∃ a, s.get? x = some a ∧ target ∈ a.outgoing) ∧ MadeAfterDeletion h target x

namespace Indexed

/-- The indexes of a store without atoms hold what they should. -/
theorem empty (limit : Option Nat) : Indexed [] (Store.empty limit) where
  labelled key x := by simp [Store.empty, Store.get?, Index.mem_ids_empty]
  referrers target x := by simp [Store.empty, Store.get?, Index.mem_ids_empty]

/-- An event that neither makes nor deletes an atom leaves what the indexes must hold. -/
theorem concat_silent {h : List Event} {s after : Store} (hi : Indexed h s) {e : Event}
    (hmade : e.made? = none) (hdel : ∀ id, ¬ e.Deletes id)
    (hlabelled : after.labelled = s.labelled) (hreferrers : after.referrers = s.referrers)
    (hget : ∀ x, (after.get? x).map (fun a => (a.kind, a.shape))
      = (s.get? x).map fun a => (a.kind, a.shape)) :
    Indexed (h ++ [e]) after := by
  -- the indexes look at kind and shape only, which a write does not change
  have hstruct : ∀ (p : Kind → Shape → Prop) x,
      (∃ a, after.get? x = some a ∧ p a.kind a.shape) ↔
        ∃ a, s.get? x = some a ∧ p a.kind a.shape := by
    intro p x
    have := hget x
    cases ha : after.get? x <;> cases hb : s.get? x <;> simp_all
  constructor
  · intro key x
    rw [hlabelled, hi.labelled]
    exact (hstruct (fun kind shape => shape.label.map (LabelKey.mk kind) = some key) x).symm
  · intro target x
    rw [hreferrers, hi.referrers, madeAfterDeletion_concat, hmade]
    have := hstruct (fun _ shape => target ∈ shape.outgoing) x
    simp only [hdel, not_false_eq_true, true_and, reduceCtorEq, false_or]
    exact and_congr_left' this.symm

/-- A creation files the new atom under its label and under what it references. -/
theorem make {h : List Event} {s : Store} (hi : Indexed h s) (hs : s.Sound) {op : Operation}
    {kind : Kind} {shape : Shape} (request : op.request? = some (kind, shape)) :
    Indexed (h ++ [⟨op, .ok (.made (Atom.new s.nextId kind shape))⟩]) (s.place kind shape) := by
  have hnone : s.get? s.nextId = none := hs.get?_of_le (Nat.le_refl _)
  have hdel : ∀ id, ¬ Event.Deletes ⟨op, .ok (.made (Atom.new s.nextId kind shape))⟩ id :=
    fun _ => Event.not_deletes_of_request (by rw [request]; rfl)
  have hmade : Event.made? ⟨op, .ok (.made (Atom.new s.nextId kind shape))⟩ = some s.nextId := rfl
  constructor
  · intro key x
    rw [s.mem_labelled_place, s.get?_place, hi.labelled]
    by_cases hx : x = s.nextId
    · simp [hx, hnone]
    · simp [hx]
  · intro target x
    rw [s.mem_referrers_place, s.get?_place, hi.referrers, madeAfterDeletion_concat, hmade]
    by_cases hx : x = s.nextId
    · have hnew : (Atom.new s.nextId kind shape).outgoing = shape.outgoing := rfl
      simp only [hx, hnone, hdel, hnew, if_true, Option.some.injEq, exists_eq_left', reduceCtorEq,
        false_and, exists_false, false_or, not_false_eq_true, true_or, and_true]
    · simp [hx, Ne.symm hx, hdel]

/-- A deletion takes the atom out, and forgets all links to its id. -/
theorem delete {h : List Event} {s : Store} (hi : Indexed h s) {a : Atom}
    (ha : s.get? a.id = some a) :
    Indexed (h ++ [⟨.delete a.id, .ok .done⟩]) (s.without a) := by
  have hdel : ∀ id, Event.Deletes ⟨.delete a.id, .ok .done⟩ id ↔ a.id = id := by
    intro id
    simp [Event.Deletes, Except.isOk, Except.toBool]
  have hmade : Event.made? ⟨.delete a.id, .ok .done⟩ = none := rfl
  constructor
  · intro key x
    rw [s.mem_labelled_without, s.get?_without, hi.labelled]
    by_cases hx : x = a.id
    · subst hx
      simp [ha]
    · simp [hx]
  · intro target x
    rw [s.mem_referrers_without, s.get?_without, hi.referrers, madeAfterDeletion_concat, hdel,
      hmade]
    by_cases hx : x = a.id
    · subst hx
      -- the deleted atom itself is under no id any more
      simp +contextual [ha]
    · simp only [hx, and_false, not_false_eq_true, true_and, if_false, reduceCtorEq, false_or,
        ne_eq, eq_comm (a := target)]
      tauto

/-- A step carries the content of the indexes on. -/
theorem step {h : List Event} {s after : Store} {op : Operation}
    {outcome : Except StoreError Answer} (hs : s.Sound) (hstep : s.Step op outcome after)
    (hi : Indexed h s) : Indexed (h ++ [⟨op, outcome⟩]) after := by
  cases hstep with
  | full => exact hi.concat_silent rfl (fun _ => Event.not_deletes_error) rfl rfl fun _ => rfl
  | missing => exact hi.concat_silent rfl (fun _ => Event.not_deletes_error) rfl rfl fun _ => rfl
  | made request => exact hi.make hs request
  | deleted operation ha =>
    subst operation
    exact hi.delete ha
  | reserved operation =>
    subst operation
    refine hi.concat_silent rfl ?_ rfl rfl fun _ => rfl
    rintro id ⟨hid, -⟩
    simp at hid
  | @written w a answer write ha quiet =>
    refine hi.concat_silent (Event.made?_of_issued? quiet)
      (fun _ => Event.not_deletes_of_write (by rw [write]; rfl)) rfl rfl fun x => ?_
    rw [s.get?_modify]
    split
    · rw [Option.map_map]
      rfl
    · rfl

/-- Every run leaves indexes that hold what atoms and history say. -/
theorem run (limit : Option Nat) (ops : List Operation) :
    Indexed ((Store.empty limit).run ops).1 ((Store.empty limit).run ops).2 :=
  Store.run_induction (P := Indexed) step ops (Store.Sound.empty limit) (empty limit)

end Indexed

/-! ## What look-ups answer -/

/-- The nodes of a kind with a label. -/
def Atom.isLabelled (kind : Kind) (label : String) (a : Atom) : Bool :=
  a.isNode && a.kind == kind && a.label == some label

/-- Having the key of a kind and label is being a node of that kind with that label. -/
theorem Atom.isLabelled_iff (kind : Kind) (label : String) (a : Atom) :
    a.isLabelled kind label = true ↔ a.labelKey? = some ⟨kind, label⟩ := by
  obtain ⟨id, k, shape, truth, attention⟩ := a
  cases shape with
  | link outgoing => simp [isLabelled, isNode, Shape.isNode, labelKey?, Atom.label, Shape.label]
  | node l =>
    cases l <;>
      simp [isLabelled, isNode, Shape.isNode, labelKey?, Atom.label, Shape.label]

/-- Only nodes have a label, so asking for one leaves out the links. -/
theorem Pattern.accepts_node (resolve : Id → Option Atom) (kind : Kind) (label : String) (a : Atom) :
    (Pattern.node kind label).accepts resolve a = a.isLabelled kind label := by
  obtain ⟨id, k, shape, truth, attention⟩ := a
  simp only [Pattern.node, accepts, admits, Atom.isLabelled, Atom.isNode, Atom.label, Atom.outgoing,
    Option.all_some, Bool.false_or, BEq.comm (a := kind)]
  cases shape with
  | link outgoing => simp [Shape.label, Shape.isNode]
  | node l => simp [Shape.outgoing, Shape.isNode, acceptsAll]

/-- An atom with a reference is a link. -/
theorem Atom.isLink_of_mem_outgoing {a : Atom} {id : Id} (h : id ∈ a.outgoing) : a.isLink = true := by
  cases hshape : a.shape with
  | node label => simp [Atom.outgoing, hshape, Shape.outgoing] at h
  | link outgoing => exact Atom.isLink_of_shape hshape

/-- What look-ups through the indexes answer, by the atoms and the history, and what the indexes
store. -/
structure IndexesExact (h : List Event) (s : Store) : Prop where
  findNodes_query : ∀ kind label, s.findNodes kind label = s.query (Atom.isLabelled kind label)
  findNodes_matching : ∀ kind label,
    s.findNodes kind label = s.matching (Pattern.node kind label)
  incoming_sorted : ∀ id, (s.incoming id).Pairwise Store.ById
  mem_incoming : ∀ id a, a ∈ s.incoming id ↔
    a ∈ s.atoms ∧ a.isLink = true ∧ id ∈ a.outgoing ∧ MadeAfterDeletion h id a.id
  labelled_live : ∀ (key : LabelKey) (set : Std.TreeSet Id), s.labelled[key]? = some set →
    set.isEmpty = false ∧ ∀ x ∈ set, (s.get? x).isSome
  referrers_live : ∀ (id : Id) (set : Std.TreeSet Id), s.referrers[id]? = some set →
    set.isEmpty = false ∧ ∀ x ∈ set, (s.get? x).isSome

namespace Indexed

variable {h : List Event} {s : Store}

/-- Nodes found by kind and label are those that a scan finds, in the order of their ids. -/
theorem findNodes_eq_query (hi : Indexed h s) (hs : s.Sound) (kind : Kind) (label : String) :
    s.findNodes kind label = s.query (Atom.isLabelled kind label) := by
  apply hs.resolveAll_eq_query (Index.pairwise_ids _ _)
  intro a ha
  rw [hi.labelled, Atom.isLabelled_iff, ha]
  simp

/-- The links found for an id are those that reference it and were made after its last deletion. -/
theorem mem_incoming (hi : Indexed h s) (hs : s.Sound) (id : Id) (a : Atom) :
    a ∈ s.incoming id ↔
      a ∈ s.atoms ∧ a.isLink = true ∧ id ∈ a.outgoing ∧ MadeAfterDeletion h id a.id := by
  rw [Store.incoming, Store.resolveAll, List.mem_filterMap, hs.mem_atoms]
  constructor
  · rintro ⟨x, hx, ha⟩
    have hkey := hs.keyed ha
    subst hkey
    obtain ⟨⟨b, hb, hid⟩, hafter⟩ := (hi.referrers id a.id).mp hx
    rw [ha, Option.some.injEq] at hb
    subst hb
    exact ⟨ha, Atom.isLink_of_mem_outgoing hid, hid, hafter⟩
  · rintro ⟨ha, -, hid, hafter⟩
    exact ⟨a.id, (hi.referrers id a.id).mpr ⟨⟨a, ha, hid⟩, hafter⟩, ha⟩

/-- Every stored set has a member, and its members are live. -/
theorem exact (hi : Indexed h s) (hs : s.Sound) (ht : s.Tidy) : IndexesExact h s where
  findNodes_query := hi.findNodes_eq_query hs
  findNodes_matching kind label := by
    rw [hi.findNodes_eq_query hs, Store.matching]
    congr 1
    funext a
    exact (Pattern.accepts_node _ kind label a).symm
  incoming_sorted id := hs.pairwise_resolveAll (Index.pairwise_ids s.referrers id)
  mem_incoming := hi.mem_incoming hs
  labelled_live key set hset := by
    refine ⟨ht.labelled key set hset, fun x hx => ?_⟩
    obtain ⟨a, ha, -⟩ := (hi.labelled key x).mp ((Index.mem_ids _ _ _).mpr ⟨set, hset, hx⟩)
    rw [ha]
    rfl
  referrers_live id set hset := by
    refine ⟨ht.referrers id set hset, fun x hx => ?_⟩
    obtain ⟨⟨a, ha, -⟩, -⟩ :=
      (hi.referrers id x).mp ((Index.mem_ids _ _ _).mpr ⟨set, hset, hx⟩)
    rw [ha]
    rfl

end Indexed

/-- Every run keeps both indexes tidy. -/
theorem Store.tidy_run {s : Store} (hs : s.Sound) (ht : s.Tidy) (ops : List Operation) :
    (s.run ops).2.Tidy :=
  Store.run_induction (P := fun _ s => s.Tidy) (fun _ hstep ht => ht.step hstep) ops (h := []) hs ht

/-- Whatever operations a store has seen, its indexes answer what a scan of its atoms answers, and
they store nothing else. -/
theorem Store.run_indexes_exact (limit : Option Nat) (ops : List Operation) :
    IndexesExact ((Store.empty limit).run ops).1 ((Store.empty limit).run ops).2 :=
  (Indexed.run limit ops).exact ((Store.Sound.empty limit).run ops)
    (Store.tidy_run (Store.Sound.empty limit) (Store.Tidy.empty limit) ops)

end BeliefGraph
