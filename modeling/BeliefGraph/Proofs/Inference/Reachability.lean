import BeliefGraph.Proofs.Inference.Backward
import BeliefGraph.Proofs.Inference.Settling

/-!
# Backward chaining finds what leads to its goal

An id leads to another along the links that chaining walks along, and chains of these are what both
searches are about. A backward search finds each live atom from which a chain leads to the goal, once,
and not the goal itself (`Store.mem_backward`). Forward chaining makes links for chains and states
nothing else, so it leaves the chains as they are: a search finds the same before and after it. Once
forward chaining has settled each chain is a link, and the first round of a search finds all.

A round of a search keeps what was met closed under premises, except below the ids that it looks at next
(`Search.run_closed`). Each round but the last meets a new id, so as many rounds as there are live atoms
are enough.
-/

namespace BeliefGraph

open Relation

namespace Store

/-! ## Chains -/

/-- An inheritance or implication link leads from one id to another. -/
def Leads (s : Store) (x y : Id) : Prop := ∃ t, s.States t ∧ t.source = x ∧ t.target = y

/-- What a search needs of a store: the links start at some live ids, under which the index is exact. -/
structure Searchable (s : Store) (candidates : List Id) : Prop where
  sound : s.Sound
  sources : ∀ t, s.States t → t.source ∈ candidates
  live : ∀ id ∈ candidates, s.contains id = true
  index : ∀ id ∈ candidates, s.incoming id = s.scanIncoming id

variable {s : Store} {candidates : List Id} {x y : Id}

/-- An id from which a link leads is one of the candidates. -/
theorem Searchable.mem_of_leads (h : s.Searchable candidates) (hxy : s.Leads x y) :
    x ∈ candidates := by
  obtain ⟨t, ht, rfl, rfl⟩ := hxy
  exact h.sources t ht

/-- A chain leads from one id to another when a walk does. -/
theorem transGen_leads_iff :
    TransGen s.Leads x y ↔ ∃ t path, Walk s.States t path ∧ t.source = x ∧ t.target = y := by
  constructor
  · intro h
    induction h using TransGen.head_induction_on with
    | single h =>
      obtain ⟨t, ht, hsource, htarget⟩ := h
      exact ⟨t, [t], .single ht, hsource, htarget⟩
    | head h _ ih =>
      obtain ⟨t, ht, hsource, htarget⟩ := h
      obtain ⟨u, path, hwalk, husource, hutarget⟩ := ih
      exact ⟨t.join u, t :: path, .cons ht (htarget.trans husource.symm) hwalk, hsource, hutarget⟩
  · rintro ⟨t, path, hwalk, rfl, rfl⟩
    induction hwalk with
    | @single t ht => exact .single ⟨t, ht, rfl, rfl⟩
    | @cons t u path ht hmeets _ ih => exact .head ⟨t, ht, rfl, hmeets⟩ ih

/-- Where the index is exact, the premises of an id are the ids that lead to it. -/
theorem mem_premises (h : s.incoming y = s.scanIncoming y) : x ∈ s.premises y ↔ s.Leads x y := by
  rw [premises_eq h, List.mem_map]
  constructor
  · rintro ⟨e, he, rfl⟩
    obtain ⟨he, htarget⟩ := List.mem_filter.mp he
    exact ⟨e.statement, states_iff_edge.mpr ⟨e, he, rfl⟩, rfl, beq_iff_eq.mp htarget⟩
  · rintro ⟨t, ht, rfl, rfl⟩
    obtain ⟨e, he, rfl⟩ := states_iff_edge.mp ht
    exact ⟨e, List.mem_filter.mpr ⟨he, beq_iff_eq.mpr rfl⟩, rfl⟩

end Store

/-! ## One layer -/

namespace Layer

variable {s : Store} {seen : Std.TreeSet Id} {ids : List Id} {a : Atom} {x : Id}

/-- A layer has met what was met before and the ids that it looked at. -/
theorem mem_seen : x ∈ (explore s seen ids).seen ↔ x ∈ seen ∨ x ∈ ids := by
  induction ids generalizing seen with
  | nil => simp [explore]
  | cons id ids ih =>
    rw [explore, List.mem_cons]
    split
    · next hmet =>
      rw [ih]
      constructor
      · exact Or.imp_right .inr
      · rintro (hx | rfl | hx)
        exacts [.inl hx, .inl hmet, .inr hx]
    · have hrest : x ∈ (explore s (seen.insert id) ids).seen ↔ x ∈ seen ∨ x = id ∨ x ∈ ids := by
        rw [ih, Std.TreeSet.mem_insert, Std.LawfulEqCmp.compare_eq_iff_eq, eq_comm, or_assoc,
          or_left_comm]
      simp only
      split
      · exact hrest
      · exact hrest

/-- A layer finds the live atoms among some ids that were not met before. -/
theorem mem_found (hs : s.Sound) :
    a ∈ (explore s seen ids).found ↔ s.get? a.id = some a ∧ a.id ∈ ids ∧ a.id ∉ seen := by
  induction ids generalizing seen with
  | nil => simp [explore]
  | cons id ids ih =>
    rw [explore, List.mem_cons]
    split
    · next hmet =>
      rw [ih]
      refine and_congr_right fun _ => and_congr_left fun hnew => ?_
      rw [or_iff_right]
      rintro rfl
      exact hnew hmet
    · next hnew =>
      have hrest : a ∈ (explore s (seen.insert id) ids).found
          ↔ s.get? a.id = some a ∧ a.id ∈ ids ∧ a.id ≠ id ∧ a.id ∉ seen := by
        rw [ih, Std.TreeSet.mem_insert, Std.LawfulEqCmp.compare_eq_iff_eq, not_or, eq_comm (a := id)]
      by_cases hid : a.id = id
      · -- The id is looked at for the first time.
        have hout : a ∉ (explore s (seen.insert id) ids).found := fun h => (hrest.mp h).2.2.1 hid
        subst hid
        simp only [true_or, hnew, not_false_eq_true, and_true]
        split
        · next b hb => simp [hb, hout, eq_comm]
        · next hnone => simp [hnone, hout]
      · rw [or_iff_right hid]
        simp only
        split
        · next b hb =>
          rw [List.mem_cons, hrest, or_iff_right]
          · simp [hid]
          · rintro rfl
            exact hid (hs.keyed hb)
        · rw [hrest]
          simp [hid]

/-- A layer finds no atom twice. -/
theorem nodup_found (hs : s.Sound) : ((explore s seen ids).found.map Atom.id).Nodup := by
  induction ids generalizing seen with
  | nil => simp [explore]
  | cons id ids ih =>
    rw [explore]
    split
    · exact ih
    · simp only
      split
      · next b hb =>
        refine List.nodup_cons.mpr ⟨fun hmem => ?_, ih⟩
        obtain ⟨c, hc, hcb⟩ := List.mem_map.mp hmem
        refine ((mem_found hs).mp hc).2.2 ?_
        rw [hcb, hs.keyed hb]
        exact Std.TreeSet.mem_insert_self
      · exact ih

/-- Among live ids, those that are met for the first time are found. -/
theorem mem_seen_iff_found (hs : s.Sound) (hlive : ∀ x ∈ ids, s.contains x = true) :
    x ∈ (explore s seen ids).seen
      ↔ x ∈ seen ∨ ∃ a ∈ (explore s seen ids).found, a.id = x := by
  rw [mem_seen]
  constructor
  · rintro (hx | hx)
    · exact .inl hx
    · by_cases hmet : x ∈ seen
      · exact .inl hmet
      · obtain ⟨a, ha⟩ := Option.isSome_iff_exists.mp (hlive x hx)
        obtain rfl := hs.keyed ha
        exact .inr ⟨a, (mem_found hs).mpr ⟨ha, hx, hmet⟩, rfl⟩
  · rintro (hx | ⟨a, ha, rfl⟩)
    · exact .inl hx
    · exact .inr ((mem_found hs).mp ha).2.1

end Layer

/-! ## Searches -/

/-- A stronger condition that one more member fails leaves fewer members. -/
theorem length_filter_lt {α : Type} {p q : α → Bool} {xs : List α} (h : ∀ x, p x = true → q x = true)
    {x : α} (hx : x ∈ xs) (hq : q x = true) (hp : ¬ p x = true) :
    (xs.filter p).length < (xs.filter q).length := by
  have hsub : (xs.filter p).Sublist (xs.filter q) := List.monotone_filter_right xs h
  refine lt_of_le_of_ne hsub.length_le fun heq => ?_
  have hmem : x ∈ xs.filter q := List.mem_filter.mpr ⟨hx, hq⟩
  rw [← hsub.eq_of_length heq] at hmem
  exact hp (List.mem_filter.mp hmem).2

namespace Search

variable {s : Store} {rounds : Nat} {seen : Std.TreeSet Id} {frontier candidates : List Id} {a : Atom}

/-- What a search finds is live and was not met before. -/
theorem get?_of_mem_run (hs : s.Sound) (ha : a ∈ (run s rounds seen frontier).found) :
    s.get? a.id = some a ∧ a.id ∉ seen := by
  induction rounds generalizing seen frontier with
  | zero => exact absurd ha List.not_mem_nil
  | succ rounds ih =>
    rw [run] at ha
    split at ha
    · exact absurd ha List.not_mem_nil
    · rcases List.mem_append.mp ha with ha | ha
      · obtain ⟨hget, -, hnew⟩ := (Layer.mem_found hs).mp ha
        exact ⟨hget, hnew⟩
      · obtain ⟨hget, hnew⟩ := ih ha
        exact ⟨hget, fun hmet => hnew (Layer.mem_seen.mpr (.inl hmet))⟩

/-- Nothing is found twice. -/
theorem nodup_run (hs : s.Sound) : ((run s rounds seen frontier).found.map Atom.id).Nodup := by
  induction rounds generalizing seen frontier with
  | zero => exact List.nodup_nil
  | succ rounds ih =>
    rw [run]
    split
    · exact List.nodup_nil
    · rw [List.map_append, List.nodup_append]
      refine ⟨Layer.nodup_found hs, ih, ?_⟩
      rintro x hx y hy rfl
      obtain ⟨a, ha, rfl⟩ := List.mem_map.mp hx
      obtain ⟨b, hb, hba⟩ := List.mem_map.mp hy
      refine (get?_of_mem_run hs hb).2 ?_
      rw [hba]
      exact Layer.mem_seen.mpr (.inr ((Layer.mem_found hs).mp ha).2.1)

/-- Of candidates the premises are the ids from which a link leads to one of them. -/
theorem mem_premises_frontier (h : s.Searchable candidates) (hfrontier : frontier ⊆ candidates)
    {x : Id} : x ∈ frontier.flatMap s.premises ↔ ∃ y ∈ frontier, s.Leads x y := by
  rw [List.mem_flatMap]
  refine exists_congr fun y => and_congr_right fun hy => ?_
  exact Store.mem_premises (h.index y (hfrontier hy))

/-- What a layer finds is looked at next. -/
theorem found_subset (h : s.Searchable candidates) (hfrontier : frontier ⊆ candidates) :
    (Layer.explore s seen (frontier.flatMap s.premises)).found.map Atom.id ⊆ candidates := by
  intro x hx
  obtain ⟨a, ha, rfl⟩ := List.mem_map.mp hx
  obtain ⟨y, -, hleads⟩ :=
    (mem_premises_frontier h hfrontier).mp ((Layer.mem_found h.sound).mp ha).2.1
  exact h.mem_of_leads hleads

/-- A chain leads from what a search finds to where it started. -/
theorem transGen_of_mem_run (h : s.Searchable candidates) (hfrontier : frontier ⊆ candidates)
    (ha : a ∈ (run s rounds seen frontier).found) : ∃ y ∈ frontier, TransGen s.Leads a.id y := by
  induction rounds generalizing seen frontier with
  | zero => exact absurd ha List.not_mem_nil
  | succ rounds ih =>
    have hfound : ∀ b ∈ (Layer.explore s seen (frontier.flatMap s.premises)).found,
        ∃ y ∈ frontier, s.Leads b.id y := fun b hb =>
      (mem_premises_frontier h hfrontier).mp ((Layer.mem_found h.sound).mp hb).2.1
    rw [run] at ha
    split at ha
    · exact absurd ha List.not_mem_nil
    · rcases List.mem_append.mp ha with ha | ha
      · obtain ⟨y, hy, hleads⟩ := hfound a ha
        exact ⟨y, hy, .single hleads⟩
      · obtain ⟨x, hx, hchain⟩ := ih (found_subset h hfrontier) ha
        obtain ⟨b, hb, rfl⟩ := List.mem_map.mp hx
        obtain ⟨y, hy, hleads⟩ := hfound b hb
        exact ⟨y, hy, hchain.tail hleads⟩

/-- A search that has a round for each id that it has not met ends with all that leads to what it has
met. -/
theorem run_closed (h : s.Searchable candidates) (hfrontier : frontier ⊆ candidates)
    (hrounds : (candidates.filter fun x => decide (x ∉ seen)).length < rounds)
    (hclosed : ∀ y ∈ seen, y ∉ frontier → ∀ x, s.Leads x y → x ∈ seen) {x y : Id}
    (hy : y ∈ seen ∨ ∃ a ∈ (run s rounds seen frontier).found, a.id = y) (hxy : s.Leads x y) :
    x ∈ seen ∨ ∃ a ∈ (run s rounds seen frontier).found, a.id = x := by
  -- The induction is on the rounds; what was met before the frontier stays closed from round to round.
  induction rounds generalizing seen frontier with
  | zero => exact absurd hrounds (Nat.not_lt_zero _)
  | succ rounds ih =>
    have hpremises : ∀ {z}, z ∈ frontier.flatMap s.premises ↔ ∃ y ∈ frontier, s.Leads z y :=
      mem_premises_frontier h hfrontier
    have hmet : ∀ {z}, z ∈ (Layer.explore s seen (frontier.flatMap s.premises)).seen
        ↔ z ∈ seen ∨ ∃ a ∈ (Layer.explore s seen (frontier.flatMap s.premises)).found, a.id = z := by
      refine Layer.mem_seen_iff_found h.sound fun z hz => ?_
      obtain ⟨y, -, hleads⟩ := hpremises.mp hz
      exact h.live z (h.mem_of_leads hleads)
    have hnext : ∀ y ∈ seen, ∀ x, s.Leads x y →
        x ∈ (Layer.explore s seen (frontier.flatMap s.premises)).seen := by
      intro y hy x hxy
      by_cases hlooked : y ∈ frontier
      · exact Layer.mem_seen.mpr (.inr (hpremises.mpr ⟨y, hlooked, hxy⟩))
      · exact Layer.mem_seen.mpr (.inl (hclosed y hy hlooked x hxy))
    rw [run] at hy ⊢
    by_cases hempty : (Layer.explore s seen (frontier.flatMap s.premises)).found.isEmpty = true
    · -- What leads to the ids that were looked at was met before.
      simp only [hempty, if_true] at hy ⊢
      rw [List.isEmpty_iff] at hempty
      rw [hempty] at hmet
      simpa using hmet.mp (hnext y (by simpa using hy) x hxy)
    · simp only [hempty, Bool.false_eq_true, if_false, List.mem_append, or_and_right, exists_or]
        at hy ⊢
      rw [← or_assoc, ← hmet] at hy ⊢
      refine ih (found_subset h hfrontier) ?_ (fun z hz hlooked => ?_) hy
      · -- The layer has met one more of the candidates.
        obtain ⟨b, hb⟩ := List.exists_mem_of_ne_nil _ (mt List.isEmpty_iff.mpr hempty)
        obtain ⟨-, hmem, hnew⟩ := (Layer.mem_found h.sound).mp hb
        have hcandidate := found_subset h hfrontier (List.mem_map_of_mem hb)
        refine Nat.lt_of_lt_of_le (length_filter_lt (fun z hz => ?_) hcandidate (decide_eq_true hnew) ?_)
          (Nat.le_of_lt_succ hrounds)
        · exact decide_eq_true fun hz' => of_decide_eq_true hz (Layer.mem_seen.mpr (.inl hz'))
        · simpa using Layer.mem_seen.mpr (.inr hmem)
      · rcases hmet.mp hz with hz | ⟨c, hc, rfl⟩
        · exact hnext z hz
        · exact absurd (List.mem_map_of_mem hc) hlooked

end Search

namespace Store

variable {s : Store} {candidates : List Id} {goal : Id} {rounds : Nat} {a : Atom}

/-- Backward chaining finds the live atoms from which a chain leads to the goal, and not the goal. -/
theorem mem_backward (h : s.Searchable candidates) (hgoal : goal ∈ candidates)
    (hrounds : candidates.length ≤ rounds) :
    a ∈ (s.backward goal rounds).found
      ↔ s.get? a.id = some a ∧ a.id ≠ goal ∧ TransGen s.Leads a.id goal := by
  have hseen : ∀ {x}, x ∈ Std.TreeSet.ofList [goal] ↔ x = goal := by
    intro x
    rw [Std.TreeSet.mem_ofList, List.contains_iff_mem, List.mem_singleton]
  have hfrontier : [goal] ⊆ candidates := List.cons_subset.mpr ⟨hgoal, List.nil_subset _⟩
  constructor
  · intro ha
    obtain ⟨hget, hnew⟩ := Search.get?_of_mem_run h.sound ha
    obtain ⟨y, hy, hchain⟩ := Search.transGen_of_mem_run h hfrontier ha
    rw [List.mem_singleton.mp hy] at hchain
    exact ⟨hget, mt hseen.mpr hnew, hchain⟩
  · rintro ⟨hget, hne, hchain⟩
    have hfewer : (candidates.filter fun x => decide (x ∉ Std.TreeSet.ofList [goal])).length < rounds := by
      refine Nat.lt_of_lt_of_le ?_ hrounds
      exact List.length_filter_lt_length_iff_exists.mpr ⟨goal, hgoal, by simp⟩
    have hmet : a.id ∈ Std.TreeSet.ofList [goal] ∨ ∃ b ∈ (s.backward goal rounds).found, b.id = a.id := by
      refine hchain.head_induction_on (fun hleads => ?_) fun hleads _ ih => ?_
      · exact Search.run_closed h hfrontier hfewer (fun y hy hout => absurd (by simp [hseen.mp hy]) hout)
          (.inl (hseen.mpr rfl)) hleads
      · exact Search.run_closed h hfrontier hfewer (fun y hy hout => absurd (by simp [hseen.mp hy]) hout)
          ih hleads
    obtain ⟨b, hb, hid⟩ := hmet.resolve_left (mt hseen.mp hne)
    have hb' := (Search.get?_of_mem_run h.sound hb).1
    rw [hid, hget] at hb'
    cases hb'
    exact hb

/-- The first round finds the live atoms that lead to the goal themselves. -/
theorem mem_backward_one (h : s.Searchable candidates) (hgoal : goal ∈ candidates) :
    a ∈ (s.backward goal 1).found ↔ s.get? a.id = some a ∧ a.id ≠ goal ∧ s.Leads a.id goal := by
  have hround : (s.backward goal 1).found
      = (Layer.explore s (Std.TreeSet.ofList [goal]) ([goal].flatMap s.premises)).found := by
    rw [backward, Search.run]
    split
    · next hempty => exact (List.isEmpty_iff.mp hempty).symm
    · exact List.append_nil _
  rw [hround, Layer.mem_found h.sound,
    Search.mem_premises_frontier h (List.cons_subset.mpr ⟨hgoal, List.nil_subset _⟩),
    Std.TreeSet.mem_ofList, List.contains_iff_mem, List.mem_singleton]
  simp only [List.mem_singleton, exists_eq_left, ne_eq, and_comm]

/-- Nothing is found twice by backward chaining. -/
theorem nodup_backward (hs : s.Sound) : (s.backward goal rounds).found.Nodup :=
  (Search.nodup_run hs).of_map

/-- In a store that operations lead to, where links start at live ids, the live ids can be searched. -/
theorem Reachable.searchable (hs : s.Reachable)
    (hsources : ∀ t, s.States t → s.contains t.source = true) :
    s.Searchable (s.atoms.map Atom.id) where
  sound := hs.sound
  sources t ht := hs.sound.mem_ids.mpr (hsources t ht)
  live _ hid := hs.sound.mem_ids.mp hid
  index _ hid := (hs.files (hs.sound.mem_ids.mp hid)).incoming_eq hs.sound

end Store

/-! ## Searches after forward chaining -/

/-- A walk along some statements is one along any statements that include them. -/
theorem Walk.mono {T T' : Statement → Prop} {t : Statement} {path : List Statement}
    (h : Walk T t path) (hT : ∀ t, T t → T' t) : Walk T' t path := by
  induction h with
  | single ht => exact .single (hT _ ht)
  | cons ht hmeets _ ih => exact .cons (hT _ ht) hmeets ih

/-- A walk starts where its first statement does. -/
theorem Walk.exists_source {T : Statement → Prop} {t : Statement} {path : List Statement}
    (h : Walk T t path) : ∃ u, T u ∧ u.source = t.source := by
  cases h with
  | single ht => exact ⟨t, ht, rfl⟩
  | @cons u _ _ hu _ _ => exact ⟨u, hu, rfl⟩

namespace Space

variable {space : Space} {rounds : Nat} {x y : Id}

/-- A run answers the atoms that it puts behind those of the store. -/
theorem exists_made_forward (hs : space.store.Open) (rounds : Nat) :
    ∃ made, (space.forward none rounds).1 = .ok made ∧
      space.store.Grown made (space.forward none rounds).2.store := by
  obtain ⟨made, hchained⟩ := Progress.exists_chained_forward (p := space.startRun) hs.sound none rounds
  exact ⟨made, (forward_eq_ok hs none rounds).trans (congrArg Except.ok hchained.created),
    hchained.grown⟩

/-- After some rounds the store states what walks of a bounded length make. -/
theorem states_forward (hs : space.store.Open) (rounds : Nat) (t : Statement) :
    (space.forward none rounds).2.store.States t
      ↔ ∃ path, Walk space.store.States t path ∧ path.length ≤ 2 ^ rounds :=
  (Progress.forward_states (p := space.startRun) hs rfl rounds).2 t

/-- What was stated before a run is stated after it. -/
theorem states_forward_of_states (hs : space.store.Open) {t : Statement}
    (ht : space.store.States t) : (space.forward none rounds).2.store.States t :=
  (states_forward hs rounds t).mpr ⟨[t], .single ht, Nat.one_le_two_pow⟩

/-- Forward chaining leaves the chains as they are. -/
theorem transGen_leads_forward (hs : space.store.Open) :
    TransGen (space.forward none rounds).2.store.Leads x y ↔ TransGen space.store.Leads x y := by
  constructor
  · intro h
    obtain ⟨t, path, hwalk, hsource, htarget⟩ := Store.transGen_leads_iff.mp h
    obtain ⟨whole, hwhole, -⟩ := hwalk.flatten _ fun u => (states_forward hs rounds u).mp
    exact Store.transGen_leads_iff.mpr ⟨t, whole, hwhole, hsource, htarget⟩
  · refine fun h => TransGen.mono (fun x y => ?_) x y h
    rintro ⟨t, ht, hsource, htarget⟩
    exact ⟨t, states_forward_of_states hs ht, hsource, htarget⟩

/-- Once forward chaining has settled, each walk has a link of its own. -/
theorem Settles.states (h : space.Settles none rounds) (hs : space.store.Open) {t : Statement}
    {path : List Statement} (hwalk : Walk space.store.States t path) :
    (space.forward none rounds).2.store.States t := by
  obtain ⟨made, -, hgrown⟩ := exists_made_forward hs rounds
  have hwalk' : Walk (space.forward none rounds).2.store.States t path :=
    hwalk.mono fun _ hu => states_forward_of_states hs hu
  exact Store.states_of_conclusions hgrown.sound (h.conclusions hs) hwalk'

/-- Once forward chaining has settled, links lead where chains led before. -/
theorem Settles.leads_iff (h : space.Settles none rounds) (hs : space.store.Open) :
    (space.forward none rounds).2.store.Leads x y ↔ TransGen space.store.Leads x y := by
  constructor
  · exact fun hleads => (transGen_leads_forward hs).mp (.single hleads)
  · intro hchain
    obtain ⟨t, path, hwalk, hsource, htarget⟩ := Store.transGen_leads_iff.mp hchain
    exact ⟨t, h.states hs hwalk, hsource, htarget⟩

/-- After forward chaining the store is searched over the ids that were live before it. -/
theorem searchable_forward (hs : space.store.Reachable) (hlimit : space.store.limit = none)
    (hsources : ∀ t, space.store.States t → space.store.contains t.source = true) (rounds : Nat) :
    (space.forward none rounds).2.store.Searchable (space.store.atoms.map Atom.id) := by
  have hopen : space.store.Open := ⟨hs.sound, hlimit⟩
  obtain ⟨made, -, hgrown⟩ := exists_made_forward hopen rounds
  refine ⟨hgrown.sound, fun t ht => ?_, fun id hid => ?_, fun id hid => ?_⟩
  · obtain ⟨path, hwalk, -⟩ := (states_forward hopen rounds t).mp ht
    obtain ⟨u, hu, hsource⟩ := hwalk.exists_source
    exact hs.sound.mem_ids.mpr (hsource ▸ hsources u hu)
  · obtain ⟨a, ha⟩ := Option.isSome_iff_exists.mp (hs.sound.mem_ids.mp hid)
    rw [Store.contains, hgrown.get? hs.sound ha, Option.isSome_some]
  · have hfiles := Progress.forward_induction (P := fun s => s.Sound ∧ s.Files id)
      (Q := fun _ => True)
      (fun s kind shape truth _ h => ⟨h.1.withNext, h.2.place_modify h.1 kind shape _ _⟩)
      (fun _ _ _ _ _ _ => trivial) (p := space.startRun) ⟨hs.sound, hs.files (hs.sound.mem_ids.mp hid)⟩ none rounds
    exact hfiles.2.incoming_eq hfiles.1

/-- Backward chaining finds the same atoms before and after forward chaining, each of them once, if it
has as many steps as there were live atoms and the links start at live ids. Once forward chaining has
settled it finds all of them in one step. -/
theorem backward_after_forward (hs : space.store.Reachable) (hlimit : space.store.limit = none)
    (hsources : ∀ t, space.store.States t → space.store.contains t.source = true) {goal : Id}
    (hgoal : space.store.contains goal = true) {steps : Nat} (hsteps : space.store.size ≤ steps)
    (rounds : Nat) :
    (space.forward none rounds).1.isOk = true ∧
      ∃ found again, (space.backward goal steps).1 = .ok found ∧
        ((space.forward none rounds).2.backward goal steps).1 = .ok again ∧ again.Perm found ∧
        (space.Settles none rounds → ∃ direct,
          ((space.forward none rounds).2.backward goal 1).1 = .ok direct ∧ direct.Perm found) := by
  have hopen : space.store.Open := ⟨hs.sound, hlimit⟩
  have hbefore := hs.searchable hsources
  have hafter := searchable_forward hs hlimit hsources rounds
  have hmem : goal ∈ space.store.atoms.map Atom.id := hs.sound.mem_ids.mpr hgoal
  have hgoal' := hafter.live goal hmem
  rw [Store.size_eq_length_atoms, ← List.length_map Atom.id] at hsteps
  obtain ⟨made, hmade, hgrown⟩ := exists_made_forward hopen rounds
  -- What leads to the goal is as live as before.
  have hget : ∀ a : Atom, TransGen space.store.Leads a.id goal →
      ((space.forward none rounds).2.store.get? a.id = some a ↔ space.store.get? a.id = some a) := by
    intro a hchain
    obtain ⟨z, hleads, -⟩ := TransGen.head'_iff.mp hchain
    obtain ⟨b, hb⟩ := Option.isSome_iff_exists.mp (hbefore.live a.id (hbefore.mem_of_leads hleads))
    rw [hgrown.get? hs.sound hb, hb]
  have hnodup : (space.store.backward goal steps).found.Nodup := Store.nodup_backward hs.sound
  refine ⟨by rw [hmade]; rfl, (space.store.backward goal steps).found,
    ((space.forward none rounds).2.store.backward goal steps).found, ?_, ?_, ?_, fun h => ?_⟩
  · rw [backward, if_pos hgoal]
  · rw [backward, if_pos hgoal']
  · refine (List.perm_ext_iff_of_nodup (Store.nodup_backward hafter.sound) hnodup).mpr fun a => ?_
    rw [Store.mem_backward hafter hmem hsteps, Store.mem_backward hbefore hmem hsteps,
      transGen_leads_forward hopen, ← and_assoc, ← and_assoc]
    exact and_congr_left fun hchain => and_congr_left fun _ => hget a hchain
  · refine ⟨((space.forward none rounds).2.store.backward goal 1).found, ?_, ?_⟩
    · rw [backward, if_pos hgoal']
    · refine (List.perm_ext_iff_of_nodup (Store.nodup_backward hafter.sound) hnodup).mpr fun a => ?_
      rw [Store.mem_backward_one hafter hmem, Store.mem_backward hbefore hmem hsteps,
        h.leads_iff hopen, ← and_assoc, ← and_assoc]
      exact and_congr_left fun hchain => and_congr_left fun _ => hget a hchain

/-- Two rounds make six links, and the third makes none. -/
theorem backward_after_forward_threeInACircle :
    ∃ found again direct, (threeInACircle.backward 3 6).1 = .ok found ∧
      found.map Atom.id = [2, 1] ∧
      ((threeInACircle.forward none 3).2.backward 3 6).1 = .ok again ∧ again.Perm found ∧
      ((threeInACircle.forward none 3).2.backward 3 1).1 = .ok direct ∧ direct.Perm found := by
  have hedges : ∀ e ∈ threeInACircle.store.edges,
      threeInACircle.store.contains e.statement.source = true := by decide
  have hsources : ∀ t, threeInACircle.store.States t →
      threeInACircle.store.contains t.source = true := by
    intro t ht
    obtain ⟨e, he, rfl⟩ := Store.states_iff_edge.mp ht
    exact hedges e he
  have hgoal : threeInACircle.store.contains 3 = true := by decide
  have hsteps : threeInACircle.store.size ≤ 6 := by decide
  obtain ⟨-, found, again, hfound, hagain, hperm, hdirect⟩ :=
    backward_after_forward ⟨none, _, rfl⟩ rfl hsources hgoal hsteps 3
  obtain ⟨direct, hdirect, hperm'⟩ := hdirect ⟨2, by decide, rfl⟩
  refine ⟨found, again, direct, hfound, ?_, hagain, hperm, hdirect, hperm'⟩
  have hids : (threeInACircle.backward 3 6).1.map (List.map Atom.id) = .ok [2, 1] := rfl
  rw [hfound] at hids
  exact Except.ok.inj hids

end Space

end BeliefGraph
