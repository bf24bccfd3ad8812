import BeliefGraph.Proofs.Space.Evolution
import BeliefGraph.Proofs.Store.Ranking

/-!
# The focus of attention

Three actions compute the focus anew: an update, a decay, and an allocation that succeeds. After each of
them the focus is the top of the ranking (`Space.isTop_of_refocuses`), and no other action touches it
(`Space.allocator_act`). What is read of it later are the ids that are still live. As ids are not handed
out twice, these are the same atoms as at the update (`Space.focus_stays`).
-/

namespace BeliefGraph

/-- An action that computes the focus anew if it succeeds. -/
def Action.UpdatesFocus : Action → Prop
  | .about _ (.allocate _) => True
  | .updateFocus => True
  | .decay _ => True
  | _ => False

namespace Space

variable {space updated after : Space} {action : Action} {later : List Action} {a : Atom} {id : Id}

/-- An action computes the focus anew. -/
def Refocuses (space : Space) (action : Action) : Prop :=
  action.UpdatesFocus ∧ (space.act action).1.isOk = true

/-! ## One action -/

/-- What is done on the store alone leaves the allocator as it was. -/
theorem allocator_onStore {α : Type} (space : Space) (result : Except StoreError (α × Store)) :
    (space.onStore result).2.allocator = space.allocator := by
  cases result <;> rfl

/-- No other action touches the focus or how it is computed. -/
theorem allocator_act (h : ¬ space.Refocuses action) :
    (space.act action).2.allocator = space.allocator := by
  cases action with
  | updateFocus => exact absurd ⟨trivial, rfl⟩ h
  | decay rate => exact absurd ⟨trivial, rfl⟩ h
  | createNode kind label => exact space.allocator_onStore _
  | createLink kind outgoing => exact space.allocator_onStore _
  | about id request =>
    cases request with
    | allocate delta =>
      cases hget : space.store.get? id with
      | none => rw [act, ask_missing hget]
      | some a =>
        obtain ⟨reply, after, hask⟩ := exists_ask_live hget (.allocate delta)
        -- an allocation for a live atom succeeds and computes the focus, which was excluded
        exact absurd ⟨trivial, by rw [act, hask]; rfl⟩ h
    | backward rounds =>
      simp only [act, ask, answering, backward]
      split <;> rfl
    | revise evidence =>
      simp only [act, ask, answering, revise]
      split <;> rfl
    | evaluate => rfl
    | attention => rfl
    | _ => exact space.allocator_onStore _
  | _ => rfl

/-- An action that computes the focus anew does so after whatever it does to the store. -/
theorem exists_act_of_refocuses (h : space.Refocuses action) :
    ∃ store, (space.act action).2 = updateFocus { space with store } := by
  obtain ⟨hupdates, hok⟩ := h
  cases action with
  | updateFocus => exact ⟨space.store, rfl⟩
  | decay rate => exact ⟨space.store.decay rate, rfl⟩
  | about id request =>
    cases request with
    | allocate delta =>
      simp only [act, ask, allocate] at hok ⊢
      cases hadd : space.store.addSti id delta with
      | error e =>
        rw [hadd] at hok
        exact absurd hok Bool.false_ne_true
      | ok result => exact ⟨result.2, rfl⟩
    | _ => exact hupdates.elim
  | _ => exact hupdates.elim

/-- No action changes the size of the focus. -/
theorem focusSize_act (space : Space) (action : Action) :
    (space.act action).2.allocator.focusSize = space.allocator.focusSize := by
  by_cases h : space.Refocuses action
  · obtain ⟨store, hact⟩ := exists_act_of_refocuses h
    rw [hact]
    rfl
  · rw [allocator_act h]

/-- An action that computes the focus anew leaves it with the top of the ranking. -/
theorem isTop_of_refocuses (hs : space.store.Sound) (h : space.Refocuses action) :
    (space.act action).2.store.IsTop space.allocator.focusSize (space.act action).2.allocator.focus := by
  have hsound := (evolves_act hs action).sound hs
  obtain ⟨store, hact⟩ := exists_act_of_refocuses h
  rw [hact] at hsound ⊢
  exact hsound.isTop_mostImportant space.allocator.focusSize

/-! ## Runs -/

/-- So the size of the focus is the one of the settings after any actions. -/
theorem focusSize_run (space : Space) (actions : List Action) :
    (space.run actions).2.allocator.focusSize = space.allocator.focusSize := by
  induction actions generalizing space with
  | nil => rfl
  | cons action actions ih => exact (ih _).trans (space.focusSize_act action)

/-- No action of a run computes the focus anew. -/
def Quiet : Space → List Action → Prop
  | _, [] => True
  | space, action :: actions => ¬ space.Refocuses action ∧ Quiet (space.act action).2 actions

/-- Actions that do not compute the focus leave the allocator as it was. -/
theorem Quiet.allocator_run (h : space.Quiet later) :
    (space.run later).2.allocator = space.allocator := by
  induction later generalizing space with
  | nil => rfl
  | cons action later ih => exact (ih h.2).trans (allocator_act h.1)

/-- What is left of the focus of a space after some more actions. -/
structure KeepsFocus (updated : Space) (later : List Action) (after : Space) : Prop where
  stored : after.allocator.focus = updated.allocator.focus
  /-- The ids that are still live, in the same order. -/
  ids : after.focus.map Atom.id = updated.allocator.focus.filter after.store.contains
  live : ∀ a ∈ after.focus, a ∈ after.store.atoms
  /-- An atom of the focus was there at the update, and has been ever since. -/
  since : ∀ a ∈ after.focus, ∀ past future, later = past ++ future →
    ∃ b ∈ (updated.run past).2.store.atoms, b.id = a.id ∧ b.kind = a.kind ∧ b.shape = a.shape
  inFocus : ∀ id, after.inFocus id = true ↔ id ∈ updated.allocator.focus

/-- An atom in the focus is live, under an id that the allocator holds. -/
theorem mem_focus (ha : a ∈ space.focus) : ∃ id ∈ space.allocator.focus, space.store.get? id = some a :=
  List.mem_filterMap.mp ha

/-- The focus lists the ids that the allocator holds, in their order and without the dead ones. -/
theorem ids_focus (hs : space.store.Sound) :
    space.focus.map Atom.id = space.allocator.focus.filter space.store.contains := by
  rw [focus, Store.resolveAll]
  induction space.allocator.focus with
  | nil => rfl
  | cons id ids ih =>
    cases hget : space.store.get? id with
    | none =>
      have hdead : ¬ space.store.contains id = true := by
        rw [Store.contains, hget]
        exact Bool.false_ne_true
      rw [List.filterMap_cons_none hget, List.filter_cons_of_neg hdead, ih]
    | some a =>
      rw [List.filterMap_cons_some hget, List.filter_cons_of_pos (by rw [Store.contains, hget]; rfl),
        List.map_cons, ih, hs.keyed hget]

/-- As long as the focus is not computed anew it only loses the atoms that are deleted. -/
theorem Quiet.keepsFocus (h : updated.Quiet later) (hs : updated.store.Sound)
    (hlive : ∀ id ∈ updated.allocator.focus, updated.store.contains id = true) :
    updated.KeepsFocus later (updated.run later).2 := by
  have hstored := congrArg Allocator.focus h.allocator_run
  have hafter := (evolves_run hs later).sound hs
  refine
    { stored := hstored
      ids := by rw [ids_focus hafter, hstored]
      live := fun a ha => ?_
      since := ?_
      inFocus := fun id => by rw [inFocus, hstored, List.contains_iff_mem] }
  · obtain ⟨id, -, hget⟩ := mem_focus ha
    rw [hafter.mem_atoms, hafter.keyed hget]
    exact hget
  · rintro a ha past future rfl
    obtain ⟨id, hid, hget⟩ := mem_focus ha
    rw [hstored] at hid
    obtain ⟨c, hc⟩ := Option.isSome_iff_exists.mp (hlive id hid)
    have hpast := evolves_run hs past
    have hmid := hpast.sound hs
    have hfuture := evolves_run hmid future
    rw [run_append] at hget
    -- The id had been handed out at the update, so the atom has not been made since.
    obtain ⟨b, hb, hkind, hshape⟩ :=
      hfuture.later.kept hget ((hs.issued hc).trans_le hpast.later.nextId)
    have hkeyed := (hfuture.sound hmid).keyed hget
    refine ⟨b, ?_, (hmid.keyed hb).trans hkeyed.symm, hkind, hshape⟩
    rw [hmid.mem_atoms, hmid.keyed hb]
    exact hb

/-- The focus is the top of the ranking right after each action that computes it anew, and no other action
changes what is stored. Until the next one, what is read of it is the stored list without the ids that
are no longer live, and never an atom that was made since, while the stored list itself goes on to tell
what is in focus. Before the first one the focus is empty. -/
theorem focus_stays_top (settings : Settings) (before later : List Action) (action : Action) :
    let space := ((ofSettings settings).run before).2
    let updated := (space.act action).2
    (space.Refocuses action →
      updated.store.IsTop settings.allocator.focusSize updated.allocator.focus ∧
      (updated.Quiet later → updated.KeepsFocus later (updated.run later).2)) ∧
    (¬ space.Refocuses action → updated.allocator.focus = space.allocator.focus) ∧
    ((ofSettings settings).Quiet before → space.allocator.focus = []) := by
  intro space updated
  have hs : space.store.Sound := (Reachable.filed ⟨settings, before, rfl⟩).sound
  have hsize : space.allocator.focusSize = settings.allocator.focusSize := focusSize_run _ before
  refine ⟨fun h => ?_, fun h => congrArg Allocator.focus (allocator_act h), fun h => ?_⟩
  · have htop := isTop_of_refocuses hs h
    have hupdated := (evolves_act hs action).sound hs
    rw [hsize] at htop
    exact ⟨htop, fun hquiet => hquiet.keepsFocus hupdated fun id => htop.contains hupdated⟩
  · exact congrArg Allocator.focus h.allocator_run

def shiftingSettings : Settings := { allocator := { focusSize := 2 } }

/-- Three nodes, one of which has some importance. -/
def shiftingActions : List Action :=
  [.createNode .concept (some "a"), .createNode .concept (some "b"), .createNode .concept (some "c"),
    .about 2 (.addSti 10)]

/-- A node of the focus is deleted, another one is made, and the one outside becomes the most important,
with an allocation that fails. -/
def shiftingLater : List Action :=
  [.about 2 .delete, .createNode .concept (some "b"), .about 1 (.addSti 50), .about 2 (.allocate 99)]

/-- Two of the nodes are equally important and fill the focus. One of them is then deleted. -/
theorem focus_stays_top_shifting :
    ∃ space updated after : Space, space = ((ofSettings shiftingSettings).run shiftingActions).2 ∧
      updated = (space.act (.about 3 (.allocate 10))).2 ∧ after = (updated.run shiftingLater).2 ∧
      space.Refocuses (.about 3 (.allocate 10)) ∧ updated.Quiet shiftingLater ∧
      updated.allocator.focus = [2, 3] ∧ updated.store.IsTop 2 [2, 3] ∧
      updated.KeepsFocus shiftingLater after ∧ after.focus.map Atom.id = [3] ∧
      after.inFocus 2 = true ∧ after.store.atoms.map Atom.id = [1, 3, 4] := by
  obtain ⟨hupdate, -, -⟩ :=
    focus_stays_top shiftingSettings shiftingActions shiftingLater (.about 3 (.allocate 10))
  generalize hspace : ((ofSettings shiftingSettings).run shiftingActions).2 = space at hupdate
  have hrefocuses : space.Refocuses (.about 3 (.allocate 10)) := ⟨trivial, by subst hspace; decide⟩
  obtain ⟨htop, hkeeps⟩ := hupdate hrefocuses
  generalize hupdated : (space.act (.about 3 (.allocate 10))).2 = updated at htop hkeeps
  have hatoms : updated.store.atoms
      = [⟨1, .concept, .node (some "a"), Truth.unknown, ⟨0, 0, 0⟩⟩,
        ⟨2, .concept, .node (some "b"), Truth.unknown, ⟨10, 0, 0⟩⟩,
        ⟨3, .concept, .node (some "c"), Truth.unknown, ⟨10, 0, 0⟩⟩] := by
    subst hupdated hspace
    rfl
  have hfocus : updated.allocator.focus = [2, 3] := by
    have hmost : updated.allocator.focus = updated.store.mostImportant 2 := by
      subst hupdated hspace
      rfl
    rw [hmost, Store.mostImportant, Store.ranked, hatoms]
    simp [List.mergeSort, List.MergeSort.Internal.splitInTwo, Store.ranksBefore, Atom.sti]
  have hquiet : updated.Quiet shiftingLater := by
    refine ⟨fun h => h.1, fun h => h.1, fun h => h.1, fun h => ?_, trivial⟩
    subst hupdated hspace
    exact absurd h.2 (by decide)
  have hlater := hkeeps hquiet
  have hlive : (updated.run shiftingLater).2.store.atoms.map Atom.id = [1, 3, 4] := by
    subst hupdated hspace
    decide
  refine ⟨space, updated, _, rfl, hupdated.symm, rfl, hrefocuses, hquiet, hfocus,
    hfocus ▸ htop, hlater, ?_, ?_, hlive⟩
  · rw [hlater.ids, hfocus]
    subst hupdated hspace
    decide
  · rw [hlater.inFocus, hfocus]
    decide

end Space

end BeliefGraph
