import Mathlib.Data.Set.Finite.Basic
import Mathlib.Logic.Relation
import Mathlib.Order.OrderIsoNat
import BeliefGraph.Proofs.Snapshot.Order

/-!
# Links that reference each other in a cycle

`Refers` says that one of some links references another of them, and a cycle is a chain of such
references from a link back to it. Links can be made one after the other exactly when there is none.

Passes take away links until none is waiting or a pass takes nothing. `Passes` is that loop without a
bound on the number of passes; it comes to an end on all links, and `creationOrder` is its outcome. What
is taken never leads into a cycle (`Settled`), since it references only what was taken before. When a
pass takes nothing, each link that waits references one that waits, so going on from any of them comes
around. The loop therefore fails exactly on cycles, and it names the first link that leads into one.
-/

namespace BeliefGraph.Snapshot

/-! ## Chains of references -/

/-- One of some links references one of them. -/
def Refers (links : List Atom) (a b : Atom) : Prop :=
  a ∈ links ∧ b ∈ links ∧ b.id ∈ a.outgoing

/-- A chain of references leads from a link back to it. -/
def OnCycle (links : List Atom) (a : Atom) : Prop := Relation.TransGen (Refers links) a a

def Cyclic (links : List Atom) : Prop := ∃ a, OnCycle links a

/-- A link is on a cycle, or a chain of references leads from it to one that is. -/
def LeadsToCycle (links : List Atom) (a : Atom) : Prop :=
  ∃ b, Relation.ReflTransGen (Refers links) a b ∧ OnCycle links b

/-- Each link stands behind those among the list that it references. -/
def ReferencesFirst (links : List Atom) : Prop :=
  ∀ front a behind, links = front ++ a :: behind → ∀ b ∈ links, b.id ∈ a.outgoing → b ∈ front

variable {links : List Atom} {a b : Atom}

/-- A link on a cycle is one of the links. -/
theorem OnCycle.mem (h : OnCycle links a) : a ∈ links := by
  obtain ⟨b, hab, -⟩ := Relation.TransGen.head'_iff.mp h
  exact hab.1

/-- A link on a cycle is referenced. -/
theorem OnCycle.exists_referrer (h : OnCycle links a) : ∃ b ∈ links, a.id ∈ b.outgoing := by
  obtain ⟨b, -, hba⟩ := Relation.TransGen.tail'_iff.mp h
  exact ⟨b, hba.1, hba.2.2⟩

/-- A link on a cycle leads into it. -/
theorem OnCycle.leadsToCycle (h : OnCycle links a) : LeadsToCycle links a := ⟨a, .refl, h⟩

/-- A chain into a cycle goes on from its first link. -/
theorem LeadsToCycle.exists_refers (h : LeadsToCycle links a) :
    ∃ b, Refers links a b ∧ LeadsToCycle links b := by
  obtain ⟨c, hac, hcycle⟩ := h
  rcases hac.cases_head with rfl | ⟨b, hab, hbc⟩
  · obtain ⟨b, hab, hba⟩ := Relation.TransGen.head'_iff.mp hcycle
    exact ⟨b, hab, a, hba, hcycle⟩
  · exact ⟨b, hab, c, hbc, hcycle⟩

/-- There is a cycle when one of the links leads into one. -/
theorem cyclic_iff : Cyclic links ↔ ∃ a ∈ links, LeadsToCycle links a := by
  constructor
  · rintro ⟨a, ha⟩
    exact ⟨a, ha.mem, ha.leadsToCycle⟩
  · rintro ⟨a, -, b, -, hb⟩
    exact ⟨b, hb⟩

/-- Among records with ids of their own the links have such ids. -/
theorem nodup_link_ids {records : List Atom} (hids : (records.map Atom.id).Nodup) :
    ((records.filter Atom.isLink).map Atom.id).Nodup :=
  (List.filter_sublist.map Atom.id).nodup hids

/-- Where each member of a list goes on to a member, going on from one of them comes around. -/
theorem exists_cycle_of_forall_exists {α : Type} {r : α → α → Prop} {xs : List α}
    (h : ∀ x ∈ xs, ∃ y ∈ xs, r x y) {x : α} (hx : x ∈ xs) :
    ∃ y, Relation.ReflTransGen r x y ∧ Relation.TransGen r y y := by
  have : Nonempty α := ⟨x⟩
  choose! next hnext hr using h
  have hmem : ∀ n, next^[n] x ∈ {y | y ∈ xs} := by
    intro n
    induction n with
    | zero => exact hx
    | succ n ih =>
      rw [Function.iterate_succ_apply']
      exact hnext _ ih
  have hstep : ∀ n, r (next^[n] x) (next^[n + 1] x) := by
    intro n
    rw [Function.iterate_succ_apply']
    exact hr _ (hmem n)
  -- The list is finite, so going on comes to a member that it has been at.
  obtain ⟨m, n, hlt, heq⟩ := Set.Finite.exists_lt_map_eq_of_forall_mem hmem xs.finite_toSet
  refine ⟨next^[m] x, ?_, ?_⟩
  · exact Nat.rel_of_forall_rel_succ_of_le (Relation.ReflTransGen r) (f := fun n => next^[n] x)
      (fun n => .single (hstep n)) (Nat.zero_le m)
  · have hchain := Nat.rel_of_forall_rel_succ_of_lt (Relation.TransGen r) (f := fun n => next^[n] x)
      (fun n => .single (hstep n)) hlt
    rwa [← heq] at hchain

/-! ## The loop -/

/-- Passes over the links that are waiting, until none is or a pass takes nothing: the outcome. -/
inductive Passes (among : Std.TreeSet Id) :
    Std.TreeSet Id → List Atom → Except Id (List Atom) → Prop
  | done {taken : Std.TreeSet Id} : Passes among taken [] (.ok [])
  | stuck {taken : Std.TreeSet Id} {a : Atom} {waiting : List Atom}
      (h : (Pass.run among taken (a :: waiting)).ready = []) :
      Passes among taken (a :: waiting) (.error a.id)
  | pass {taken : Std.TreeSet Id} {waiting : List Atom} {outcome : Except Id (List Atom)}
      (h : (Pass.run among taken waiting).ready ≠ [])
      (rest : Passes among (Pass.run among taken waiting).taken (Pass.run among taken waiting).waiting
        outcome) :
      Passes among taken waiting (outcome.map ((Pass.run among taken waiting).ready ++ ·))

/-- A pass over no links takes nothing and leaves nothing. -/
theorem Pass.run_nil (among taken : Std.TreeSet Id) : run among taken [] = ⟨[], [], taken⟩ := rfl

/-- A pass that takes a link leaves fewer links than it found. -/
theorem Pass.length_waiting_lt {among taken : Std.TreeSet Id} {waiting : List Atom}
    (h : (run among taken waiting).ready ≠ []) :
    (run among taken waiting).waiting.length < waiting.length := by
  have hlength := (run_perm among taken waiting).length_eq
  rw [List.length_append] at hlength
  have := List.length_pos_iff.mpr h
  omega

/-- A pass leaves links in the order in which it found them. -/
theorem Pass.run_waiting_sublist (among taken : Std.TreeSet Id) (waiting : List Atom) :
    (run among taken waiting).waiting.Sublist waiting := by
  induction waiting generalizing taken with
  | nil => exact List.Sublist.slnil
  | cons a waiting ih =>
    rw [run]
    split
    · exact (ih (taken.insert a.id)).cons a
    · exact (ih taken).cons_cons a

/-- A pass that takes nothing has found no link ready. -/
theorem Pass.not_isReady {among taken : Std.TreeSet Id} {waiting : List Atom}
    (h : (run among taken waiting).ready = []) : ∀ a ∈ waiting, ¬ isReady among taken a = true := by
  induction waiting with
  | nil => simp
  | cons a waiting ih =>
    rw [run] at h
    split at h
    · simp at h
    · next hready => exact List.forall_mem_cons.mpr ⟨hready, ih h⟩

/-- As many passes as links are enough for the loop to come to its end. -/
theorem passes_of_length_le {among : Std.TreeSet Id} {n : Nat} {taken : Std.TreeSet Id}
    {waiting : List Atom} (hn : waiting.length ≤ n) :
    Passes among taken waiting (passes among n taken waiting) := by
  induction n generalizing taken waiting with
  | zero =>
    obtain rfl := List.length_eq_zero_iff.mp (Nat.le_zero.mp hn)
    exact .done
  | succ n ih =>
    cases waiting with
    | nil => exact .done
    | cons a waiting =>
      rw [passes]
      split
      · next hnone => exact .stuck (List.isEmpty_iff.mp hnone)
      · next hsome =>
        -- The pass has taken a link, so one pass less is enough for the links that it left.
        have hready : (Pass.run among taken (a :: waiting)).ready ≠ [] := by
          rwa [List.isEmpty_iff] at hsome
        have hlength := Pass.length_waiting_lt hready
        exact .pass hready (ih (by omega))

/-- The loop has one outcome. -/
theorem Passes.unique {among taken : Std.TreeSet Id} {waiting : List Atom}
    {outcome other : Except Id (List Atom)} (h : Passes among taken waiting outcome)
    (h' : Passes among taken waiting other) : outcome = other := by
  induction h generalizing other with
  | done =>
    cases h' with
    | done => rfl
    | pass hready => simp [Pass.run_nil] at hready
  | stuck hnone =>
    cases h' with
    | stuck => rfl
    | pass hready => exact absurd hnone hready
  | pass hready rest ih =>
    cases h' with
    | done => simp [Pass.run_nil] at hready
    | stuck hnone => exact absurd hnone hready
    | pass _ rest' => rw [ih rest']

/-! ## What was taken -/

/-- The ids of the links. -/
def idsOf (links : List Atom) : Std.TreeSet Id := Std.TreeSet.ofList (links.map Atom.id)

/-- The ids of the links are those that some link has. -/
theorem mem_idsOf {id : Id} : id ∈ idsOf links ↔ ∃ a ∈ links, a.id = id := by
  rw [idsOf, Std.TreeSet.mem_ofList, List.contains_iff_mem, List.mem_map]

/-- No link that was taken leads into a cycle. -/
def Settled (links : List Atom) (taken : Std.TreeSet Id) : Prop :=
  ∀ a ∈ links, a.id ∈ taken → ¬ LeadsToCycle links a

/-- Before the first pass no link has been taken. -/
theorem settled_empty (links : List Atom) : Settled links ∅ :=
  fun _ _ h => absurd h Std.TreeSet.not_mem_emptyc

/-- A link that references only what was taken does not lead into a cycle. -/
theorem Settled.not_leadsToCycle {taken : Std.TreeSet Id} (h : Settled links taken)
    (hready : isReady (idsOf links) taken a = true) : ¬ LeadsToCycle links a := by
  intro ha
  obtain ⟨b, ⟨-, hb, hid⟩, hcycle⟩ := ha.exists_refers
  exact h b hb (isReady_iff.mp hready b.id hid (mem_idsOf.mpr ⟨b, hb, rfl⟩)) hcycle

/-- What is taken in an order leads into no cycle, as it references only what was taken before it. -/
theorem Settled.takeAll {taken : Std.TreeSet Id} (h : Settled links taken)
    (hids : (links.map Atom.id).Nodup) {ordered : List Atom} (hsub : ordered ⊆ links)
    (horder : InOrder (idsOf links) taken ordered) : Settled links (takeAll taken ordered) := by
  induction ordered generalizing taken with
  | nil => exact h
  | cons a ordered ih =>
    obtain ⟨hready, horder⟩ := horder
    refine ih ?_ (fun b hb => hsub (List.mem_cons_of_mem a hb)) horder
    intro b hb hid
    rw [Std.TreeSet.mem_insert, Std.LawfulEqCmp.compare_eq_iff_eq] at hid
    rcases hid with hid | hid
    · -- Ids are distinct, so this is the link that was just taken.
      obtain rfl := List.inj_on_of_nodup_map hids (hsub List.mem_cons_self) hb hid
      exact h.not_leadsToCycle hready
    · exact h b hb hid

/-- How far the loop has come: the links that wait are in their order, and all others were taken. -/
structure Midway (links : List Atom) (taken : Std.TreeSet Id) (waiting : List Atom) : Prop where
  sublist : waiting.Sublist links
  split : ∀ a ∈ links, a.id ∈ taken ∨ a ∈ waiting
  settled : Settled links taken

/-- Before the first pass all links wait. -/
theorem Midway.start (links : List Atom) : Midway links ∅ links :=
  ⟨List.Sublist.refl links, fun _ ha => .inr ha, settled_empty links⟩

/-- A pass takes some of the links that wait and leaves the others in their order. -/
theorem Midway.pass {taken : Std.TreeSet Id} {waiting : List Atom} (h : Midway links taken waiting)
    (hids : (links.map Atom.id).Nodup) :
    Midway links (Pass.run (idsOf links) taken waiting).taken
      (Pass.run (idsOf links) taken waiting).waiting := by
  have hperm := Pass.run_perm (idsOf links) taken waiting
  rw [Pass.run_taken]
  refine ⟨(Pass.run_waiting_sublist _ _ _).trans h.sublist, fun a ha => ?_, ?_⟩
  · rw [mem_takeAll]
    rcases h.split a ha with htaken | hwaiting
    · exact .inl (.inl htaken)
    · rcases List.mem_append.mp (hperm.mem_iff.mpr hwaiting) with hready | hwaits
      · exact .inl (.inr ⟨a, hready, rfl⟩)
      · exact .inr hwaits
  · refine h.settled.takeAll hids (fun a ha => ?_) (Pass.run_inOrder _ _ _)
    exact h.sublist.subset (hperm.mem_iff.mp (List.mem_append_left _ ha))

/-- When a pass takes nothing, each link that waits leads into a cycle. -/
theorem Midway.leadsToCycle {taken : Std.TreeSet Id} {waiting : List Atom}
    (h : Midway links taken waiting) (hnone : (Pass.run (idsOf links) taken waiting).ready = []) :
    ∀ a ∈ waiting, LeadsToCycle links a := by
  intro a ha
  refine exists_cycle_of_forall_exists (fun b hb => ?_) ha
  have hready := Pass.not_isReady hnone b hb
  rw [isReady_iff] at hready
  push Not at hready
  obtain ⟨id, hid, hamong, htaken⟩ := hready
  obtain ⟨c, hc, rfl⟩ := mem_idsOf.mp hamong
  have hwaits : c ∈ waiting := (h.split c hc).resolve_left htaken
  exact ⟨c, hwaits, h.sublist.subset hb, hc, hid⟩

/-! ## Refusals -/

/-- An id is that of the first link that leads into a cycle. -/
def FirstIntoCycle (links : List Atom) (id : Id) : Prop :=
  ∃ front a behind, links = front ++ a :: behind ∧ a.id = id ∧ LeadsToCycle links a ∧
    ∀ b ∈ front, ¬ LeadsToCycle links b

/-- There is only one first link into a cycle. -/
theorem FirstIntoCycle.unique {id other : Id} (h : FirstIntoCycle links id)
    (h' : FirstIntoCycle links other) : id = other := by
  obtain ⟨front, a, behind, hsplit, rfl, ha, hfront⟩ := h
  obtain ⟨front', b, behind', hsplit', rfl, hb, hfront'⟩ := h'
  rw [hsplit] at hsplit'
  rcases List.append_eq_append_iff.mp hsplit' with ⟨between, rfl, heq⟩ | ⟨between, rfl, heq⟩
  · cases between with
    | nil => cases heq; rfl
    | cons c between =>
      cases heq
      exact absurd ha (hfront' a (by simp))
  · cases between with
    | nil => cases heq; rfl
    | cons c between =>
      cases heq
      exact absurd hb (hfront b (by simp))

/-- What stands in front of the head of a sublist is not in it. -/
theorem not_mem_of_sublist {α : Type} {front behind tail : List α} {x y : α}
    (hsub : (x :: tail).Sublist (front ++ x :: behind)) (hnodup : (front ++ x :: behind).Nodup)
    (hy : y ∈ front) : y ∉ x :: tail := by
  have hdisjoint := (List.nodup_append.mp hnodup).2.2
  obtain ⟨left, right, hsplit, hleft, hright⟩ := List.sublist_append_iff.mp hsub
  cases left with
  | nil =>
    rw [hsplit, List.nil_append]
    exact fun hmem => hdisjoint y hy y (hright.subset hmem) rfl
  | cons z left =>
    cases hsplit
    exact absurd rfl (hdisjoint x (hleft.subset List.mem_cons_self) x List.mem_cons_self)

/-- The links in front of the first that waits were taken. -/
theorem Midway.firstIntoCycle {taken : Std.TreeSet Id} {waiting : List Atom}
    (h : Midway links taken (a :: waiting)) (hids : (links.map Atom.id).Nodup)
    (hnone : (Pass.run (idsOf links) taken (a :: waiting)).ready = []) :
    FirstIntoCycle links a.id := by
  have hleads := h.leadsToCycle hnone a List.mem_cons_self
  obtain ⟨front, behind, hsplit⟩ := List.append_of_mem (h.sublist.subset List.mem_cons_self)
  have hnodup : (front ++ a :: behind).Nodup := hsplit ▸ List.Nodup.of_map _ hids
  refine ⟨front, a, behind, hsplit, rfl, hleads, fun b hb => ?_⟩
  have hwaits : b ∉ a :: waiting := not_mem_of_sublist (hsplit ▸ h.sublist) hnodup hb
  have hmem : b ∈ links := hsplit ▸ List.mem_append_left _ hb
  exact h.settled b hmem ((h.split b hmem).resolve_right hwaits)

/-- A loop that fails names the first link into a cycle. -/
theorem Passes.firstIntoCycle {taken : Std.TreeSet Id} {waiting : List Atom}
    {outcome : Except Id (List Atom)} (h : Passes (idsOf links) taken waiting outcome)
    (hmid : Midway links taken waiting) (hids : (links.map Atom.id).Nodup) {id : Id}
    (hfail : outcome = .error id) : FirstIntoCycle links id := by
  induction h generalizing id with
  | done => cases hfail
  | stuck hnone =>
    cases hfail
    exact hmid.firstIntoCycle hids hnone
  | @pass taken waiting outcome hready rest ih =>
    cases outcome with
    | ok ordered => cases hfail
    | error other =>
      cases hfail
      exact ih (hmid.pass hids) rfl

/-! ## Orders -/

/-- The loop comes to its end, and `creationOrder` is its only outcome. -/
theorem passes_iff {outcome : Except Id (List Atom)} :
    Passes (idsOf links) ∅ links outcome ↔ creationOrder links = outcome := by
  have hloop : Passes (idsOf links) ∅ links (creationOrder links) :=
    passes_of_length_le (Nat.le_refl _)
  constructor
  · exact hloop.unique
  · rintro rfl
    exact hloop

/-- Links in an order lead into no cycle. -/
theorem not_leadsToCycle_of_ok (hids : (links.map Atom.id).Nodup) {ordered : List Atom}
    (h : creationOrder links = .ok ordered) : ∀ a ∈ links, ¬ LeadsToCycle links a := by
  obtain ⟨hperm, horder⟩ := creationOrder_sound h
  have hsettled := (settled_empty links).takeAll hids hperm.subset horder
  intro a ha
  exact hsettled a ha (mem_takeAll.mpr (.inr ⟨a, hperm.mem_iff.mpr ha, rfl⟩))

/-- Links are refused with the id of the first that leads into a cycle. -/
theorem creationOrder_eq_error_iff (hids : (links.map Atom.id).Nodup) {id : Id} :
    creationOrder links = .error id ↔ FirstIntoCycle links id := by
  have hfirst : ∀ {id}, creationOrder links = .error id → FirstIntoCycle links id := fun h =>
    (passes_iff.mpr h).firstIntoCycle (Midway.start links) hids rfl
  refine ⟨hfirst, fun h => ?_⟩
  cases horder : creationOrder links with
  | error other => rw [(hfirst horder).unique h]
  | ok ordered =>
    obtain ⟨front, a, behind, hsplit, -, hleads, -⟩ := h
    have hmem : a ∈ links := hsplit ▸ List.mem_append_right _ List.mem_cons_self
    exact absurd hleads (not_leadsToCycle_of_ok hids horder a hmem)

/-- Links have an order exactly when no chain of references comes around. -/
theorem exists_creationOrder_iff (hids : (links.map Atom.id).Nodup) :
    (∃ ordered, creationOrder links = .ok ordered) ↔ ¬ Cyclic links := by
  constructor
  · rintro ⟨ordered, horder⟩ hcyclic
    obtain ⟨a, ha, hleads⟩ := cyclic_iff.mp hcyclic
    exact not_leadsToCycle_of_ok hids horder a ha hleads
  · intro hacyclic
    cases horder : creationOrder links with
    | ok ordered => exact ⟨ordered, rfl⟩
    | error id =>
      obtain ⟨front, a, behind, hsplit, -, hleads, -⟩ := (creationOrder_eq_error_iff hids).mp horder
      have hmem : a ∈ links := hsplit ▸ List.mem_append_right _ List.mem_cons_self
      exact absurd (cyclic_iff.mpr ⟨a, hmem, hleads⟩) hacyclic

/-- Links have no order exactly when some of them reference each other in a cycle. -/
theorem exists_creationOrder_error_iff (hids : (links.map Atom.id).Nodup) :
    (∃ id, creationOrder links = .error id) ↔ Cyclic links := by
  rw [← not_iff_not, ← exists_creationOrder_iff hids]
  cases creationOrder links <;> simp

/-- With ids of their own, links are in order when each stands behind those that it references. -/
theorem inOrder_iff_referencesFirst {ordered : List Atom} (hperm : ordered.Perm links)
    (hids : (links.map Atom.id).Nodup) :
    InOrder (idsOf links) ∅ ordered ↔ ReferencesFirst ordered := by
  have hids' : (ordered.map Atom.id).Nodup := (hperm.map Atom.id).nodup_iff.mpr hids
  rw [inOrder_iff]
  constructor
  · rintro h front a behind rfl b hb hid
    have hbids : b.id ∈ idsOf links := mem_idsOf.mpr ⟨b, hperm.mem_iff.mp hb, rfl⟩
    -- What is referenced has been taken, so it is the link with this id in front.
    have htaken := isReady_iff.mp (h front a behind rfl) b.id hid hbids
    rw [mem_takeAll] at htaken
    obtain ⟨c, hc, hcb⟩ := htaken.resolve_left Std.TreeSet.not_mem_emptyc
    obtain rfl := List.inj_on_of_nodup_map hids' (List.mem_append_left _ hc) hb hcb
    exact hc
  · rintro h front a behind rfl
    rw [isReady_iff]
    intro id hid hamong
    obtain ⟨b, hb, rfl⟩ := mem_idsOf.mp hamong
    exact mem_takeAll.mpr (.inr ⟨b, h front a behind rfl b (hperm.mem_iff.mpr hb) hid, rfl⟩)

/-- In the order that is found, each link stands behind those that it references. -/
theorem referencesFirst_of_ok (hids : (links.map Atom.id).Nodup) {ordered : List Atom}
    (h : creationOrder links = .ok ordered) : ReferencesFirst ordered := by
  obtain ⟨hperm, horder⟩ := creationOrder_sound h
  exact (inOrder_iff_referencesFirst hperm hids).mp horder

/-- Links that are in order stay as they are. -/
theorem creationOrder_of_referencesFirst (hids : (links.map Atom.id).Nodup)
    (h : ReferencesFirst links) : creationOrder links = .ok links := by
  have horder := (inOrder_iff_referencesFirst (List.Perm.refl links) hids).mpr h
  have hrun := Pass.run_of_inOrder horder
  rw [← passes_iff]
  cases links with
  | nil => exact .done
  | cons a links =>
    -- The first pass takes all links, in their order.
    have hready : (Pass.run (idsOf (a :: links)) ∅ (a :: links)).ready ≠ [] := by
      rw [hrun]
      exact List.cons_ne_nil a links
    have hrest : Passes (idsOf (a :: links)) (Pass.run (idsOf (a :: links)) ∅ (a :: links)).taken
        (Pass.run (idsOf (a :: links)) ∅ (a :: links)).waiting (.ok []) := by
      rw [hrun]
      exact .done
    have hpass := Passes.pass hready hrest
    rw [hrun] at hpass
    rwa [Except.map, List.append_nil] at hpass

end BeliefGraph.Snapshot
