import BeliefGraph.Proofs.Inference.Renaming

/-!
# Backward chaining under other names

A search goes from live atoms along edges against their direction. It finds the edges through the index
of referrers, which is exact for a live id: nothing was ever deleted under it. So two stores whose edges
and atoms are the same under other names are searched alike, and what is found stands in the same order.
-/

namespace BeliefGraph

open Set

/-- Where the index is exact, the premises of an id are the sources of the edges that lead to it. -/
theorem Store.premises_eq {s : Store} {id : Id} (h : s.incoming id = s.scanIncoming id) :
    s.premises id = (s.edges.filter (·.target == id)).map Edge.source := by
  rw [premises, h, scanIncoming, query, edges]
  -- Both sides go over the atoms of the store, and an atom adds to one side what it adds to the other.
  induction s.atoms with
  | nil => rfl
  | cons a as ih =>
    cases hedge : Edge.ofAtom? a with
    | none =>
      rw [List.filterMap_cons_none hedge, ← ih, List.filter_cons]
      split
      · rw [List.filterMap_cons_none hedge]
      · rfl
    | some e =>
      obtain ⟨-, -, hshape, -, -⟩ := Edge.ofAtom?_eq_some.mp hedge
      have houtgoing : a.outgoing = [e.source, e.target] := by rw [Atom.outgoing, hshape]; rfl
      rw [List.filterMap_cons_some hedge, List.filter_cons, List.filter_cons]
      by_cases htarget : e.target = id
      · -- The link is one of the referrers, and it leads to the id.
        have hreferences : (a.isLink && a.references id) = true := by
          rw [Atom.isLink_of_shape hshape, Atom.references, houtgoing]
          simp [htarget]
        rw [if_pos hreferences, if_pos (beq_iff_eq.mpr htarget), List.filterMap_cons_some hedge,
          List.filterMap_cons, List.map_cons, ← ih]
        simp only [htarget, if_true]
      · rw [if_neg (mt beq_iff_eq.mp htarget), ← ih]
        split
        · rw [List.filterMap_cons_some hedge, List.filterMap_cons]
          simp only [htarget, if_false]
        · rfl

/-- What a layer finds is live. -/
theorem Layer.get?_of_mem_found {s : Store} (hs : s.Sound) {seen : Std.TreeSet Id} {ids : List Id}
    {a : Atom} (ha : a ∈ (explore s seen ids).found) : s.get? a.id = some a := by
  induction ids generalizing seen with
  | nil => exact absurd ha List.not_mem_nil
  | cons id ids ih =>
    rw [explore] at ha
    split at ha
    · exact ih ha
    · simp only at ha
      split at ha
      · next b hb =>
        rcases List.mem_cons.mp ha with rfl | ha
        · rw [hs.keyed hb]
          exact hb
        · exact ih ha
      · exact ih ha

namespace Store

/-- What a search reads of two stores is the same under other names. -/
structure SearchedAlike (s s' : Store) (f : Id → Id) (named : Set Id) : Prop where
  sound : s.Sound
  edges : s'.edges = s.edges.map (Edge.rename f f)
  ends : ∀ e ∈ s.edges, e.statement.Within named
  live : ∀ id, s.contains id = true → id ∈ named
  get? : ∀ id ∈ named, s'.get? (f id) = (s.get? id).map (Atom.rename f)
  incoming : ∀ id, s.contains id = true → s.incoming id = s.scanIncoming id
  image : ∀ id, s.contains id = true → s'.incoming (f id) = s'.scanIncoming (f id)

namespace SearchedAlike

variable {s s' : Store} {f : Id → Id} {named : Set Id}

/-- Below a live id the premises of one store are those of the other under their other names. -/
theorem premises (h : s.SearchedAlike s' f named) (hf : InjOn f named) {id : Id}
    (hid : s.contains id = true) : s'.premises (f id) = (s.premises id).map f := by
  have htarget : s.edges.filter ((fun e => e.target == f id) ∘ Edge.rename f f)
      = s.edges.filter (·.target == id) := by
    refine List.filter_congr fun e he => ?_
    rw [Bool.eq_iff_iff, Function.comp_apply, beq_iff_eq, beq_iff_eq]
    exact hf.eq_iff (h.ends e he).2 (h.live id hid)
  rw [premises_eq (h.incoming id hid), premises_eq (h.image id hid), h.edges, List.filter_map, htarget,
    List.map_map, List.map_map]
  rfl

/-- What leads to a live id has a name in the other store. -/
theorem mem_named_of_premises (h : s.SearchedAlike s' f named) {id x : Id}
    (hid : s.contains id = true) (hx : x ∈ s.premises id) : x ∈ named := by
  rw [premises_eq (h.incoming id hid)] at hx
  obtain ⟨e, he, rfl⟩ := List.mem_map.mp hx
  exact (h.ends e (List.mem_filter.mp he).1).1

/-- A layer of one store is a layer of the other. -/
theorem explore (h : s.SearchedAlike s' f named) (hf : InjOn f named) {seen seen' : Std.TreeSet Id}
    (hseen : ∀ x ∈ named, f x ∈ seen' ↔ x ∈ seen) {ids : List Id} (hids : ∀ x ∈ ids, x ∈ named) :
    (Layer.explore s' seen' (ids.map f)).found
        = (Layer.explore s seen ids).found.map (Atom.rename f) ∧
      ∀ x ∈ named, f x ∈ (Layer.explore s' seen' (ids.map f)).seen
        ↔ x ∈ (Layer.explore s seen ids).seen := by
  induction ids generalizing seen seen' with
  | nil => exact ⟨rfl, hseen⟩
  | cons id ids ih =>
    have hid := hids id List.mem_cons_self
    have hids := fun x hx => hids x (List.mem_cons_of_mem id hx)
    rw [List.map_cons, Layer.explore, Layer.explore]
    -- The two searches have met the same ids, so they skip the same ones.
    by_cases hmet : id ∈ seen
    · rw [if_pos hmet, if_pos ((hseen id hid).mpr hmet)]
      exact ih hseen hids
    · have hinsert : ∀ x ∈ named, f x ∈ seen'.insert (f id) ↔ x ∈ seen.insert id := by
        intro x hx
        simp only [Std.TreeSet.mem_insert, Std.LawfulEqCmp.compare_eq_iff_eq]
        rw [hf.eq_iff hid hx, hseen x hx]
      obtain ⟨hfound, hrest⟩ := ih hinsert hids
      rw [if_neg hmet, if_neg (mt (hseen id hid).mp hmet), h.get? id hid]
      cases s.get? id with
      | none => exact ⟨hfound, hrest⟩
      | some a => exact ⟨congrArg _ hfound, hrest⟩

/-- A search from live ids finds the same in both stores. -/
theorem run (h : s.SearchedAlike s' f named) (hf : InjOn f named) (rounds : Nat)
    {seen seen' : Std.TreeSet Id} (hseen : ∀ x ∈ named, f x ∈ seen' ↔ x ∈ seen) {frontier : List Id}
    (hlive : ∀ x ∈ frontier, s.contains x = true) :
    (Search.run s' rounds seen' (frontier.map f)).found
      = (Search.run s rounds seen frontier).found.map (Atom.rename f) := by
  induction rounds generalizing seen seen' frontier with
  | zero => rfl
  | succ rounds ih =>
    have hpremises : (frontier.map f).flatMap s'.premises = (frontier.flatMap s.premises).map f := by
      rw [List.flatMap_map, List.map_flatMap]
      exact List.flatMap_congr fun x hx => h.premises hf (hlive x hx)
    have hids : ∀ x ∈ frontier.flatMap s.premises, x ∈ named := by
      intro x hx
      obtain ⟨y, hy, hx⟩ := List.mem_flatMap.mp hx
      exact h.mem_named_of_premises (hlive y hy) hx
    -- The layers are the same under other names, so both searches stop here or go on from them.
    obtain ⟨hfound, hseen⟩ := h.explore hf hseen hids
    have hempty : (Layer.explore s' seen' ((frontier.map f).flatMap s'.premises)).found.isEmpty
        = (Layer.explore s seen (frontier.flatMap s.premises)).found.isEmpty := by
      rw [hpremises, hfound, List.isEmpty_map]
    rw [Search.run, Search.run]
    simp only [hempty]
    split
    · rfl
    · have hfrontier : ((Layer.explore s seen (frontier.flatMap s.premises)).found.map
          (Atom.rename f)).map Atom.id
        = ((Layer.explore s seen (frontier.flatMap s.premises)).found.map Atom.id).map f := by
        rw [List.map_map, List.map_map]
        rfl
      rw [hpremises, hfound, hfrontier, List.map_append]
      refine congrArg _ (ih hseen fun x hx => ?_)
      obtain ⟨a, ha, rfl⟩ := List.mem_map.mp hx
      rw [contains, Layer.get?_of_mem_found h.sound ha, Option.isSome_some]

/-- Backward chaining from a live goal finds the same in both stores. -/
theorem backward (h : s.SearchedAlike s' f named) (hf : InjOn f named) {goal : Id}
    (hgoal : s.contains goal = true) (rounds : Nat) :
    (s'.backward (f goal) rounds).found = (s.backward goal rounds).found.map (Atom.rename f) := by
  refine h.run hf rounds (fun x hx => ?_) (List.forall_mem_singleton.mpr hgoal)
  simp only [Std.TreeSet.mem_ofList, List.contains_iff_mem, List.mem_singleton]
  exact hf.eq_iff hx (h.live goal hgoal)

end SearchedAlike

end Store

end BeliefGraph
