import BeliefGraph.Proofs.Store.History

/-!
# The contract of a store

What a store answers is settled by its history alone. Ids are handed out upwards from one without a
gap, an id resolves exactly while it stands for an atom that was made and not deleted since, the kind
and shape of an atom are those it was made with, and its values are those last written. The limit is
never passed, and a creation is refused exactly when it would be.

`Recorded` is the invariant that ties a store to its history; `Recorded.step` carries it over one
operation, and `Contract` is what it comes to.
-/

namespace BeliefGraph

/-! ## What a history says about an id -/

/-- Some event made an atom under an id, and none deleted it since. -/
def Kept (h : List Event) (id : Id) : Prop :=
  ∃ before e after, h = before ++ e :: after ∧ e.made? = some id ∧ ∀ d ∈ after, ¬ d.Deletes id

/-- An atom is what a history made under its id and wrote to it since. -/
def Tells (h : List Event) (a : Atom) : Prop :=
  ∃ before e after, h = before ++ e :: after ∧ e.Makes a.id a.kind a.shape ∧
    (∀ d ∈ after, ¬ d.Deletes a.id) ∧
    a.truth = after.foldl (Event.truthAfter a.id) Truth.unknown ∧
    a.attention = after.foldl (Event.attentionAfter a.id) Attention.none

/-- An id is kept after one more event if this event makes its atom, or it was kept and is not deleted. -/
theorem kept_concat {h : List Event} {e : Event} {id : Id} :
    Kept (h ++ [e]) id ↔ e.made? = some id ∨ (Kept h id ∧ ¬ e.Deletes id) := by
  constructor
  · rintro ⟨before, m, after, heq, hmade, hafter⟩
    -- Either the last event made the atom, or it came after the one that did.
    rcases List.eq_nil_or_concat after with rfl | ⟨after, d, rfl⟩
    · obtain ⟨-, hm⟩ := List.append_inj' heq rfl
      cases hm
      exact .inl hmade
    · have heq : h ++ [e] = (before ++ m :: after) ++ [d] := by simpa using heq
      obtain ⟨rfl, hd⟩ := List.append_inj' heq rfl
      cases hd
      refine .inr ⟨⟨before, m, after, rfl, hmade, fun d hd => hafter d (by simp [hd])⟩, ?_⟩
      exact hafter e (by simp)
  · rintro (hmade | ⟨⟨before, m, after, rfl, hmade, hafter⟩, hlast⟩)
    · exact ⟨h, e, [], by simp, hmade, by simp⟩
    · refine ⟨before, m, after ++ [e], by simp, hmade, ?_⟩
      intro d hd
      rcases List.mem_append.mp hd with hd | hd
      · exact hafter d hd
      · rw [List.mem_singleton.mp hd]
        exact hlast

/-- A new atom is told of by the event that makes it. -/
theorem tells_new {h : List Event} {e : Event} {id : Id} {kind : Kind} {shape : Shape}
    (he : e.Makes id kind shape) : Tells (h ++ [e]) (Atom.new id kind shape) :=
  ⟨h, e, [], rfl, he, by simp, rfl, rfl⟩

/-- An atom that an event does not delete is told of with what the event writes. -/
theorem Tells.concat {h : List Event} {a : Atom} (ha : Tells h a) {e : Event}
    (he : ¬ e.Deletes a.id) :
    Tells (h ++ [e]) { a with
      truth := Event.truthAfter a.id a.truth e
      attention := Event.attentionAfter a.id a.attention e } := by
  obtain ⟨before, m, after, rfl, hmakes, hafter, htruth, hattention⟩ := ha
  refine ⟨before, m, after ++ [e], by simp, hmakes, ?_, ?_, ?_⟩
  · intro d hd
    rcases List.mem_append.mp hd with hd | hd
    · exact hafter d hd
    · rw [List.mem_singleton.mp hd]
      exact he
  · rw [List.foldl_append, ← htruth]
    rfl
  · rw [List.foldl_append, ← hattention]
    rfl

/-- An event that writes nothing to an atom leaves what is told of it. -/
theorem Tells.concat_silent {h : List Event} {a : Atom} (ha : Tells h a) {e : Event}
    (he : ¬ e.Deletes a.id) (hw : e.write? a.id = none) : Tells (h ++ [e]) a := by
  have := ha.concat he
  simpa only [Event.truthAfter, Event.attentionAfter, hw] using this

/-! ## The events of steps -/

namespace Event

variable {op : Operation} {outcome : Except StoreError Answer} {id : Id}

/-- A creation deletes nothing. -/
theorem not_deletes_of_request (h : op.request?.isSome) : ¬ Deletes ⟨op, outcome⟩ id := by
  rintro ⟨rfl, -⟩
  simp [Operation.request?] at h

/-- A write deletes nothing. -/
theorem not_deletes_of_write (h : op.write?.isSome) : ¬ Deletes ⟨op, outcome⟩ id := by
  rintro ⟨rfl, -⟩
  simp [Operation.write?] at h

/-- A write reserves nothing. -/
theorem not_reserves_of_write (h : op.write?.isSome) : ¬ Reserves ⟨op, outcome⟩ id := by
  rintro ⟨rfl, -⟩
  simp [Operation.write?] at h

/-- A creation reserves nothing. -/
theorem not_reserves_of_request (h : op.request?.isSome) : ¬ Reserves ⟨op, outcome⟩ id := by
  rintro ⟨rfl, -⟩
  simp [Operation.request?] at h

/-- A refused operation deletes nothing. -/
theorem not_deletes_error {e : StoreError} : ¬ Deletes ⟨op, .error e⟩ id := by
  rintro ⟨-, h⟩
  simp [Except.isOk, Except.toBool] at h

/-- A refused operation writes nothing. -/
theorem write?_error {e : StoreError} : write? ⟨op, .error e⟩ id = none := rfl

/-- A creation writes nothing. -/
theorem write?_of_request {answer : Answer} (h : op.request?.isSome) :
    write? ⟨op, .ok answer⟩ id = none := by
  cases op <;> first | rfl | simp [Operation.request?] at h

/-- A write that succeeds writes to the atom that it names, and to no other. -/
theorem write?_of_write {answer : Answer} {w : Operation.Write} (h : op.write? = some w) :
    write? ⟨op, .ok answer⟩ id = if w.id = id then some w else none := by
  by_cases hid : w.id = id <;> simp [write?, Except.isOk, Except.toBool, h, hid]

/-- An event that hands out no id makes no atom. -/
theorem made?_of_issued? {e : Event} (h : e.issued? = none) : e.made? = none := by
  obtain ⟨op, outcome⟩ := e
  cases outcome with
  | error e => rfl
  | ok answer => cases answer <;> first | rfl | simp [issued?, Answer.issued?] at h

/-- The id of an atom that an event made was handed out by it. -/
theorem issued?_of_made? {e : Event} (h : e.made? = some id) : e.issued? = some id := by
  obtain ⟨op, outcome⟩ := e
  cases outcome with
  | error e => simp [made?] at h
  | ok answer => cases answer <;> first | exact h | simp [made?, Answer.made?] at h

end Event

/-! ## The invariant -/

/-- What ties a store to its history. -/
structure Recorded (h : List Event) (s : Store) : Prop where
  issued : h.filterMap Event.issued? = List.range' 1 (s.nextId - 1)
  kept : ∀ id, Kept h id ↔ (s.get? id).isSome
  tells : ∀ id a, s.get? id = some a → Tells h a
  spent : ∀ e ∈ h, ∀ id, e.Reserves id ∨ e.Deletes id → id < s.nextId ∧ s.get? id = none

/-- A store without events has no atoms and begins with the id one. -/
theorem Recorded.empty (limit : Option Nat) : Recorded [] (Store.empty limit) where
  issued := rfl
  kept id := by
    simp only [Store.get?_empty, Option.isSome_none, Bool.false_eq_true, iff_false]
    rintro ⟨before, e, after, h, -⟩
    simp at h
  tells id a h := by simp [Store.get?_empty] at h
  spent e he := by simp at he

/-- Ids that are spent stay spent when a step brings back none of them. -/
theorem Recorded.spent_concat {h : List Event} {s after : Store} (hr : Recorded h s) {last : Event}
    (hnext : s.nextId ≤ after.nextId)
    (hget : ∀ id < s.nextId, s.get? id = none → after.get? id = none)
    (hlast : ∀ id, last.Reserves id ∨ last.Deletes id → id < after.nextId ∧ after.get? id = none) :
    ∀ e ∈ h ++ [last], ∀ id, e.Reserves id ∨ e.Deletes id →
      id < after.nextId ∧ after.get? id = none := by
  intro e he id hid
  rcases List.mem_append.mp he with he | he
  · obtain ⟨hlt, hnone⟩ := hr.spent e he id hid
    exact ⟨Nat.lt_of_lt_of_le hlt hnext, hget id hlt hnone⟩
  · rw [List.mem_singleton.mp he] at hid
    exact hlast id hid

/-- A refusal tells nothing of any atom. -/
theorem Recorded.refuse {h : List Event} {s : Store} (hr : Recorded h s) (op : Operation)
    (e : StoreError) : Recorded (h ++ [⟨op, .error e⟩]) s where
  issued := by
    rw [List.filterMap_append, hr.issued]
    simp [Event.issued?]
  kept id := by
    rw [kept_concat, ← hr.kept]
    simp [Event.made?, Event.not_deletes_error]
  tells id a ha := (hr.tells id a ha).concat_silent Event.not_deletes_error Event.write?_error
  spent := by
    refine hr.spent_concat (Nat.le_refl _) (fun id _ hid => hid) ?_
    rintro id (⟨-, hid⟩ | hid)
    · simp [Event.issued?] at hid
    · exact absurd hid Event.not_deletes_error

/-- The next id continues the ids handed out. -/
theorem range'_succ_next {n : Nat} (hn : 0 < n) :
    List.range' 1 (n - 1) ++ [n] = List.range' 1 (n + 1 - 1) := by
  obtain ⟨k, rfl⟩ := Nat.exists_eq_succ_of_ne_zero hn.ne'
  rw [Nat.add_sub_cancel, Nat.succ_sub_one, List.range'_1_concat, Nat.add_comm 1 k]

/-- A creation hands out the next id and puts under it the atom that was asked for. -/
theorem Recorded.make {h : List Event} {s : Store} (hr : Recorded h s) (hs : s.Sound)
    {op : Operation} {kind : Kind} {shape : Shape} (request : op.request? = some (kind, shape)) :
    Recorded (h ++ [⟨op, .ok (.made (Atom.new s.nextId kind shape))⟩]) (s.place kind shape) := by
  have hreq : op.request?.isSome := by rw [request]; rfl
  refine ⟨?_, ?_, ?_, ?_⟩
  · rw [List.filterMap_append, hr.issued]
    exact range'_succ_next hs.next_pos
  · intro id
    rw [kept_concat, s.get?_place, hr.kept]
    have hmade : Event.made? ⟨op, .ok (.made (Atom.new s.nextId kind shape))⟩ = some s.nextId := rfl
    rw [hmade]
    by_cases hid : id = s.nextId
    · simp [hid]
    · simp [hid, Ne.symm hid, Event.not_deletes_of_request hreq]
  · intro id a ha
    rw [s.get?_place] at ha
    split at ha
    · cases ha
      exact tells_new ⟨rfl, request⟩
    · -- older atoms are untouched: a creation neither deletes nor writes
      exact (hr.tells id a ha).concat_silent (Event.not_deletes_of_request hreq)
        (Event.write?_of_request hreq)
  · refine hr.spent_concat (Nat.le_succ _) ?_ ?_
    · intro id hlt hnone
      rw [s.get?_place, if_neg (Nat.ne_of_lt hlt)]
      exact hnone
    · rintro id (hid | hid)
      · exact absurd hid (Event.not_reserves_of_request hreq)
      · exact absurd hid (Event.not_deletes_of_request hreq)

/-- A deletion takes its atom away, and the id never resolves again. -/
theorem Recorded.delete {h : List Event} {s : Store} (hr : Recorded h s) (hs : s.Sound) {a : Atom}
    (ha : s.get? a.id = some a) :
    Recorded (h ++ [⟨.delete a.id, .ok .done⟩]) (s.without a) := by
  have hdel : ∀ id, Event.Deletes ⟨.delete a.id, .ok .done⟩ id ↔ a.id = id := by
    intro id
    simp [Event.Deletes, Except.isOk, Except.toBool]
  refine ⟨?_, ?_, ?_, ?_⟩
  · rw [List.filterMap_append, hr.issued]
    simp [Event.issued?, Answer.issued?, Store.without, Store.unfile]
  · intro id
    rw [kept_concat, s.get?_without, hr.kept, hdel]
    by_cases hid : id = a.id
    · simp [hid, Event.made?, Answer.made?]
    · simp [hid, Ne.symm hid, Event.made?, Answer.made?]
  · intro id b hb
    rw [s.get?_without] at hb
    split at hb
    · simp at hb
    · next hid =>
      refine (hr.tells id b hb).concat_silent ?_ rfl
      rw [hdel, hs.keyed hb]
      exact Ne.symm hid
  · refine hr.spent_concat (Nat.le_refl _) ?_ ?_
    · intro id _ hnone
      rw [s.get?_without]
      split
      · rfl
      · exact hnone
    · rintro id (⟨hid, -⟩ | hid)
      · simp at hid
      · rw [hdel] at hid
        subst hid
        exact ⟨hs.issued ha, by rw [s.get?_without, if_pos rfl]⟩

/-- A reservation hands out the next id and puts nothing under it. -/
theorem Recorded.reserve {h : List Event} {s : Store} (hr : Recorded h s) (hs : s.Sound) :
    Recorded (h ++ [⟨.reserve, .ok (.reserved s.nextId)⟩]) s.reserve.2 := by
  have hdel : ∀ id, ¬ Event.Deletes ⟨.reserve, .ok (.reserved s.nextId)⟩ id := by
    rintro id ⟨hid, -⟩
    simp at hid
  refine ⟨?_, ?_, ?_, ?_⟩
  · rw [List.filterMap_append, hr.issued]
    exact range'_succ_next hs.next_pos
  · intro id
    rw [kept_concat, s.get?_reserve, hr.kept]
    simp [hdel, Event.made?, Answer.made?]
  · intro id a ha
    exact (hr.tells id a ha).concat_silent (hdel _) rfl
  · refine hr.spent_concat (Nat.le_succ _) (fun id _ hid => hid) ?_
    rintro id (⟨-, hid⟩ | hid)
    · obtain rfl : s.nextId = id := by simpa [Event.issued?, Answer.issued?] using hid
      exact ⟨Nat.lt_succ_self _, hs.get?_of_le (Nat.le_refl _)⟩
    · exact absurd hid (hdel id)

/-- A write changes the values of its atom as the history says, and hands out no id. -/
theorem Recorded.write {h : List Event} {s : Store} (hr : Recorded h s) (hs : s.Sound)
    {op : Operation} {w : Operation.Write} {answer : Answer}
    (write : op.write? = some w) (quiet : answer.issued? = none) :
    Recorded (h ++ [⟨op, .ok answer⟩]) (s.modify w.id w.truth w.attention) := by
  have hw : op.write?.isSome := by rw [write]; rfl
  have hdel : ∀ id, ¬ Event.Deletes ⟨op, .ok answer⟩ id := fun _ => Event.not_deletes_of_write hw
  have hissued : Event.issued? ⟨op, .ok answer⟩ = none := quiet
  refine ⟨?_, ?_, ?_, ?_⟩
  · rw [List.filterMap_append, hr.issued]
    simp [hissued, Store.modify]
  · intro id
    rw [kept_concat, s.get?_modify, hr.kept, Event.made?_of_issued? hissued]
    split <;> simp [hdel]
  · intro id b hb
    rw [s.get?_modify] at hb
    split at hb
    · next hid =>
      obtain ⟨b, hold, rfl⟩ := Option.map_eq_some_iff.mp hb
      -- the atom that is written: its history goes on with this event, under its own id
      have htold := (hr.tells id b hold).concat (hdel b.id)
      have hwid : w.id = b.id := by rw [hs.keyed hold, hid]
      simpa only [Event.truthAfter, Event.attentionAfter, Event.write?_of_write write, if_pos hwid]
        using htold
    · next hid =>
      apply (hr.tells id b hb).concat_silent (hdel b.id)
      rw [Event.write?_of_write write, hs.keyed hb, if_neg (Ne.symm hid)]
  · refine hr.spent_concat (Nat.le_refl _) ?_ ?_
    · intro id _ hnone
      rw [s.get?_modify, hnone]
      split <;> rfl
    · rintro id (hid | hid)
      · exact absurd hid (Event.not_reserves_of_write hw)
      · exact absurd hid (hdel id)

/-- A step carries the record on. -/
theorem Recorded.step {h : List Event} {s after : Store} {op : Operation}
    {outcome : Except StoreError Answer} (hs : s.Sound) (hstep : s.Step op outcome after)
    (hr : Recorded h s) : Recorded (h ++ [⟨op, outcome⟩]) after := by
  cases hstep with
  | full => exact hr.refuse op _
  | missing => exact hr.refuse op _
  | made request => exact hr.make hs request
  | deleted operation ha =>
    subst operation
    exact hr.delete hs ha
  | reserved operation =>
    subst operation
    exact hr.reserve hs
  | written write _ quiet => exact hr.write hs write quiet

/-! ## Room -/

namespace Store

/-- No step changes the limit. -/
theorem Step.limit_eq {s after : Store} {op : Operation} {outcome : Except StoreError Answer}
    (h : s.Step op outcome after) : after.limit = s.limit := by
  cases h <;> rfl

/-- A step never passes the limit. -/
theorem Step.size_le {s after : Store} {op : Operation} {outcome : Except StoreError Answer}
    (h : s.Step op outcome after) (hs : s.Sound) {limit : Nat} (hl : s.limit = some limit)
    (hsize : s.size ≤ limit) : after.size ≤ limit := by
  cases h with
  | full => exact hsize
  | missing => exact hsize
  | made request hroom =>
    rw [hs.size_place]
    by_contra hfull
    exact hroom limit ⟨hl, by omega⟩
  | deleted => exact Nat.le_trans (size_without_le _ _) hsize
  | reserved => exact hsize
  | written =>
    rw [size_modify]
    exact hsize

/-- An operation that asks for an atom is refused exactly when the store is full. -/
theorem Step.error_iff {s after : Store} {op : Operation} {outcome : Except StoreError Answer}
    (h : s.Step op outcome after) (hop : op.request?.isSome) (e : StoreError) :
    outcome = .error e ↔ ∃ limit, s.IsFull limit ∧ e = .exhausted limit := by
  have hsubject : op.subject? = none := by
    -- a creation needs no atom and writes to none, so that only the limit can refuse it
    cases op <;> first | rfl | simp [Operation.request?] at hop
  have hwrite : op.write? = none := by
    cases op <;> first | rfl | simp [Operation.request?] at hop
  cases h with
  | @full limit _ hfull =>
    constructor
    · intro he
      cases he
      exact ⟨limit, hfull, rfl⟩
    · rintro ⟨other, ⟨hother, -⟩, rfl⟩
      rw [hfull.1] at hother
      cases hother
      rfl
  | missing subject => simp [hsubject] at subject
  | made _ hroom =>
    refine ⟨fun he => by simp at he, ?_⟩
    rintro ⟨limit, hfull, -⟩
    exact absurd hfull (hroom limit)
  | deleted operation =>
    subst operation
    simp [Operation.request?] at hop
  | reserved operation =>
    subst operation
    simp [Operation.request?] at hop
  | written write => simp [hwrite] at write

/-- An operation that fails leaves the store as it was. -/
theorem Step.eq_of_error {s after : Store} {op : Operation} {e : StoreError}
    (h : s.Step op (.error e) after) : after = s := by
  cases h <;> rfl

end Store

/-! ## The contract -/

/-- What the history of a store with a limit says about the store. -/
structure Contract (limit : Option Nat) (h : List Event) (s : Store) : Prop where
  /-- The ids handed out are `1, 2, 3, …` in this order. -/
  issued : h.filterMap Event.issued? = List.range' 1 (h.filterMap Event.issued?).length
  /-- An id resolves exactly while it stands for an atom made and not deleted since. -/
  resolves_iff : ∀ id, (s.get? id).isSome ↔ Kept h id
  /-- An id that was reserved, or whose atom was deleted, does not resolve. -/
  spent : ∀ e ∈ h, ∀ id, e.Reserves id ∨ e.Deletes id → s.get? id = none
  /-- An atom has the kind and shape that it was made with, and the values last written to it. -/
  content : ∀ id a, s.get? id = some a → a.id = id ∧ Tells h a
  /-- The live atoms are listed in the order in which they were made. -/
  listed : s.atoms = (h.filterMap Event.made?).filterMap s.get?
  counted : s.size = s.atoms.length
  bounded : ∀ n, limit = some n → s.size ≤ n
  /-- Making one more atom fails exactly when the limit is reached, and is refused for that. -/
  refused_iff : ∀ op : Operation, op.request?.isSome → ∀ e,
    (s.perform op).1 = .error e ↔ ∃ n, limit = some n ∧ s.size = n ∧ e = .exhausted n
  /-- What fails changes nothing. -/
  unchanged : ∀ op e, (s.perform op).1 = .error e → (s.perform op).2 = s

/-- The ids of atoms are handed out among the others. -/
theorem made_sublist_issued (h : List Event) :
    (h.filterMap Event.made?).Sublist (h.filterMap Event.issued?) := by
  induction h with
  | nil => exact List.Sublist.slnil
  | cons e h ih =>
    cases hm : e.made? with
    | none =>
      rw [List.filterMap_cons_none hm]
      exact ih.trans ((List.sublist_cons_self e h).filterMap _)
    | some id =>
      rw [List.filterMap_cons_some hm, List.filterMap_cons_some (Event.issued?_of_made? hm)]
      exact ih.cons_cons id

/-- Atoms are listed in the order in which the history made them. -/
theorem Recorded.listed {h : List Event} {s : Store} (hr : Recorded h s) (hs : s.Sound) :
    s.atoms = (h.filterMap Event.made?).filterMap s.get? := by
  -- Ids are handed out upwards, so the order of making is the order of ids.
  refine (hs.eq_atoms ?_ ?_).symm
  · have hsub := made_sublist_issued h
    rw [hr.issued] at hsub
    rw [List.pairwise_filterMap]
    apply ((List.pairwise_lt_range' (s := 1) (n := s.nextId - 1)).sublist hsub).imp
    intro x y hxy a ha b hb
    rw [Store.ById, hs.keyed ha, hs.keyed hb]
    exact hxy
  · intro a
    rw [List.mem_filterMap]
    constructor
    · rintro ⟨id, -, ha⟩
      rw [hs.keyed ha]
      exact ha
    · intro ha
      obtain ⟨before, e, after, rfl, hmade, -⟩ := (hr.kept a.id).mpr (by rw [ha]; rfl)
      refine ⟨a.id, ?_, ha⟩
      rw [List.mem_filterMap]
      exact ⟨e, by simp, hmade⟩

/-- Every run leaves a store that is as its history says. -/
theorem Recorded.run (limit : Option Nat) (ops : List Operation) :
    Recorded ((Store.empty limit).run ops).1 ((Store.empty limit).run ops).2 :=
  Store.run_induction (P := Recorded) Recorded.step ops (Store.Sound.empty limit)
    (Recorded.empty limit)

/-- No run changes the limit. -/
theorem Store.limit_run (s : Store) (hs : s.Sound) (ops : List Operation) :
    (s.run ops).2.limit = s.limit :=
  run_induction (P := fun _ after => after.limit = s.limit)
    (fun _ hstep h => hstep.limit_eq.trans h) ops (h := []) hs rfl

/-- A store that keeps its limit keeps it through every run. -/
theorem Store.size_run_le {s : Store} (hs : s.Sound) (ops : List Operation) {n : Nat}
    (hl : s.limit = some n) (hsize : s.size ≤ n) : (s.run ops).2.size ≤ n := by
  refine (run_induction (P := fun _ after => after.limit = some n ∧ after.size ≤ n) ?_ ops
    (h := []) hs ⟨hl, hsize⟩).2
  rintro h before op outcome after hbefore hstep ⟨hlimit, hle⟩
  exact ⟨hstep.limit_eq.trans hlimit, hstep.size_le hbefore hlimit hle⟩

/-- No operations pass the limit. -/
theorem Store.Reachable.size_le {s : Store} (h : s.Reachable) {n : Nat} (hl : s.limit = some n) :
    s.size ≤ n := by
  obtain ⟨limit, ops, rfl⟩ := h
  have hempty := Sound.empty limit
  rw [limit_run _ hempty] at hl
  exact size_run_le hempty ops hl (Nat.zero_le n)

/-- Every run honours the contract, whatever the limit and whichever operations fail. -/
theorem Store.run_honours_contract (limit : Option Nat) (ops : List Operation) :
    Contract limit ((empty limit).run ops).1 ((empty limit).run ops).2 := by
  have hempty := Sound.empty limit
  have hs : ((empty limit).run ops).2.Sound := hempty.run ops
  have hr := Recorded.run limit ops
  have hlimit : ((empty limit).run ops).2.limit = limit := limit_run _ hempty ops
  have hbounded : ∀ n, limit = some n → ((empty limit).run ops).2.size ≤ n := fun n hn =>
    size_run_le hempty ops (by exact hn) (Nat.zero_le n)
  refine
    { issued := ?_
      resolves_iff := fun id => (hr.kept id).symm
      spent := fun e he id hid => (hr.spent e he id hid).2
      content := fun id a ha => ⟨hs.keyed ha, hr.tells id a ha⟩
      listed := hr.listed hs
      counted := size_eq_length_atoms _
      bounded := hbounded
      refused_iff := ?_
      unchanged := ?_ }
  · rw [hr.issued, List.length_range']
  · intro op hop e
    rw [(hs.step op).error_iff hop]
    constructor
    · rintro ⟨n, ⟨hn, hfull⟩, rfl⟩
      rw [hlimit] at hn
      exact ⟨n, hn, Nat.le_antisymm (hbounded n hn) hfull, rfl⟩
    · rintro ⟨n, hn, hsize, rfl⟩
      exact ⟨n, ⟨hlimit.trans hn, hsize.ge⟩, rfl⟩
  · intro op e he
    have hstep := hs.step op
    rw [he] at hstep
    exact hstep.eq_of_error

end BeliefGraph
