import BeliefGraph.Proofs.Store.History
import BeliefGraph.Space.Basic

/-!
# What can be asked of a space

A request is about one atom, which is named by its id. A space can also be asked to make an atom, to
hand out an id, to chain, and to look after its rules, its ledger and its focus; `Space.run` performs
such actions one after the other.

A request is refused for one reason only, that no live atom has the id, and this is found out before
anything is done (`Space.needs_ask`). So the requests that are refused can be left out of a run
(`Space.run_effective`).
-/

namespace BeliefGraph

/-- What can be asked about one atom. -/
inductive Request
  | delete
  | setTruth (truth : Truth)
  | setAttention (attention : Attention)
  | reviseTruth (evidence : Truth)
  | addSti (delta : Int32)
  | spread (mode : SpreadMode)
  /-- The premises of the atom, for at most a number of rounds. -/
  | backward (rounds : Nat)
  | evaluate
  /-- A revision that the reasoner counts. -/
  | revise (evidence : Truth)
  | stimulate (delta : Int32)
  | attention
  | spreadByReasoner
  | allocate (delta : Int32)
  | spreadByAllocator

/-- The values that a request asks to write to its atom, as functions of the present ones. -/
def Request.write? (id : Id) : Request → Option Operation.Write
  | .setTruth truth => some ⟨id, fun _ => truth, fun x => x⟩
  | .setAttention value => some ⟨id, fun x => x, fun _ => value⟩
  | .reviseTruth evidence | .revise evidence =>
    some ⟨id, fun current => current.revision evidence, fun x => x⟩
  | .addSti delta | .stimulate delta | .allocate delta =>
    some ⟨id, fun x => x, fun a => { a with sti := addImportance a.sti delta }⟩
  | _ => none

/-- What a space answers. -/
inductive Reply
  | done
  | made (atom : Atom)
  | reserved (id : Id)
  | found (atoms : List Atom)
  | truth (value : Truth)
  | attention (value : Attention)
  | sti (value : Int32)
  | spread (value : Store.Spread)

/-- What can be asked of a space. -/
inductive Action
  | about (id : Id) (request : Request)
  | createNode (kind : Kind) (label : Option String)
  | createLink (kind : Kind) (outgoing : References)
  | reserve
  | forward (target : Option Id) (rounds : Nat)
  | chain (target : Option Id)
  | addRule (rule : Rule)
  | resetLedger
  | updateFocus
  | decay (rate : Float)

namespace Space

/-- Turns the value of an answer into a reply. -/
def answering {α : Type} (reply : α → Reply) (outcome : Except StoreError α × Space) :
    Except StoreError Reply × Space :=
  (outcome.1.map reply, outcome.2)

/-- Asks for something about the atom with an id. -/
def ask (space : Space) (id : Id) : Request → Except StoreError Reply × Space
  | .delete => space.onStore ((space.store.delete id).map fun after => (.done, after))
  | .setTruth truth => space.onStore ((space.store.setTruth id truth).map fun after => (.done, after))
  | .setAttention attention =>
    space.onStore ((space.store.setAttention id attention).map fun after => (.done, after))
  | .reviseTruth evidence => answering .truth (space.onStore (space.store.reviseTruth id evidence))
  | .addSti delta => answering .sti (space.onStore (space.store.addSti id delta))
  | .spread mode => answering .spread (space.onStore (space.store.spread id mode))
  | .backward rounds => answering .found (space.backward id rounds)
  | .evaluate => ((space.evaluate id).map .truth, space)
  | .revise evidence => answering .truth (space.revise id evidence)
  | .stimulate delta => answering .sti (space.stimulate id delta)
  | .attention => ((space.attention id).map .attention, space)
  | .spreadByReasoner => answering .spread (space.spreadByReasoner id)
  | .allocate delta => answering .sti (space.allocate id delta)
  | .spreadByAllocator => answering .spread (space.spreadByAllocator id)

/-- Performs an action: its outcome, and the space after it. -/
def act (space : Space) : Action → Except StoreError Reply × Space
  | .about id request => space.ask id request
  | .createNode kind label => answering .made (space.onStore (space.store.createNode kind label))
  | .createLink kind outgoing =>
    answering .made (space.onStore (space.store.createLink kind outgoing.ids))
  | .reserve => (.ok (.reserved space.store.reserve.1), { space with store := space.store.reserve.2 })
  | .forward target rounds => answering .found (space.forward target rounds)
  | .chain target => answering .found (space.chain target)
  | .addRule rule => (.ok .done, (space.addRule rule).2)
  | .resetLedger => (.ok .done, space.resetLedger)
  | .updateFocus => (.ok .done, space.updateFocus)
  | .decay rate => (.ok .done, space.decay rate)

/-- Performs actions one after the other: their outcomes, and the space at the end. -/
def run : Space → List Action → List (Except StoreError Reply) × Space
  | space, [] => ([], space)
  | space, action :: actions =>
    let first := space.act action
    let rest := run first.2 actions
    (first.1 :: rest.1, rest.2)

/-- What is done on the store alone leaves the reasoner as it was. -/
theorem reasoner_onStore {α : Type} (space : Space) (result : Except StoreError (α × Store)) :
    (space.onStore result).2.reasoner = space.reasoner := by
  cases result <;> rfl

/-- What each action keeps is kept by a run of actions that satisfy a condition. -/
theorem run_induction {P : Space → Prop} {Q : Action → Prop}
    (step : ∀ {space action}, Q action → P space → P (space.act action).2) {space : Space}
    (h : P space) {actions : List Action} (hactions : ∀ action ∈ actions, Q action) :
    P (space.run actions).2 := by
  induction actions generalizing space with
  | nil => exact h
  | cons action actions ih =>
    obtain ⟨hfirst, hrest⟩ := List.forall_mem_cons.mp hactions
    exact ih (step hfirst h) hrest

/-- Actions, and then some more, end where all of them in one run end. -/
theorem run_append (space : Space) (actions later : List Action) :
    (space.run (actions ++ later)).2 = ((space.run actions).2.run later).2 := by
  induction actions generalizing space with
  | nil => rfl
  | cons action actions ih => exact ih _

/-! ## Missing atoms -/

end Space

/-- An outcome is a refusal if no live atom has the id, and a success if one has. -/
def Store.Needs {α : Type} (s : Store) (id : Id) (outcome : Except StoreError α) : Prop :=
  match s.get? id with
  | none => outcome = .error (.notFound id)
  | some _ => ∃ value, outcome = .ok value

namespace Store

variable {α β : Type} {s : Store} {id : Id} {outcome : Except StoreError α}

/-- To turn the value of an outcome into another changes nothing about when it is refused. -/
theorem Needs.map (h : s.Needs id outcome) (f : α → β) : s.Needs id (outcome.map f) := by
  unfold Needs at h ⊢
  split at h
  · rw [h]
    rfl
  · obtain ⟨value, rfl⟩ := h
    exact ⟨f value, rfl⟩

/-- A read needs the atom. -/
theorem needs_get (s : Store) (id : Id) : s.Needs id (s.get id) := by
  unfold Needs get
  split <;> simp_all

/-- A deletion needs the atom. -/
theorem needs_delete (s : Store) (id : Id) : s.Needs id (s.delete id) := by
  unfold Needs delete
  split <;> simp_all

/-- To write a truth value needs the atom. -/
theorem needs_updateTruth (s : Store) (id : Id) (f : Truth → Truth) :
    s.Needs id (s.updateTruth id f) := by
  unfold Needs updateTruth
  split <;> simp_all

/-- To write attention values needs the atom. -/
theorem needs_updateAttention (s : Store) (id : Id) (g : Attention → Attention) :
    s.Needs id (s.updateAttention id g) := by
  unfold Needs updateAttention
  split <;> simp_all

/-- To add to the importance needs the atom. -/
theorem needs_addSti (s : Store) (id : Id) (delta : Int32) : s.Needs id (s.addSti id delta) :=
  (s.needs_updateAttention id _).map _

/-- To spread needs the source. -/
theorem needs_spread (s : Store) (id : Id) (mode : SpreadMode) : s.Needs id (s.spread id mode) :=
  (s.needs_get id).map _

end Store

namespace Space

variable {α : Type} {space : Space} {id : Id} {outcome : Except StoreError α × Space}

/-- An outcome is a refusal that leaves the space as it was if no live atom has the id, and a success
if one has. -/
def Needs (space : Space) (id : Id) (outcome : Except StoreError α × Space) : Prop :=
  match space.store.get? id with
  | none => outcome = (.error (.notFound id), space)
  | some _ => ∃ value after, outcome = (.ok value, after)

/-- To turn the value into a reply changes nothing about when a request is refused. -/
theorem Needs.answering (h : space.Needs id outcome) (reply : α → Reply) :
    space.Needs id (answering reply outcome) := by
  unfold Needs at h ⊢
  split at h
  · rw [h]
    rfl
  · obtain ⟨value, after, rfl⟩ := h
    exact ⟨reply value, after, rfl⟩

/-- What refuses with the store, and does nothing then, needs the atom that the store needs. -/
theorem needs_of {β : Type} {result : Except StoreError β} (h : space.store.Needs id result)
    (hrefused : ∀ e, result = .error e → outcome = (.error e, space))
    (hdone : ∀ value, result = .ok value → ∃ reply after, outcome = (.ok reply, after)) :
    space.Needs id outcome := by
  unfold Needs
  unfold Store.Needs at h
  split at h
  · exact hrefused _ h
  · obtain ⟨value, hvalue⟩ := h
    exact hdone value hvalue

/-- A request on the store needs in the space what it needs in the store. -/
theorem needs_onStore {result : Except StoreError (α × Store)} (h : space.store.Needs id result) :
    space.Needs id (space.onStore result) := by
  refine needs_of h ?_ ?_
  · rintro e rfl
    rfl
  · rintro value rfl
    exact ⟨_, _, rfl⟩

/-- A request that only reads needs in the space what it needs in the store. -/
theorem needs_reading {result : Except StoreError α} (h : space.store.Needs id result) :
    space.Needs id (result, space) := by
  refine needs_of h ?_ ?_
  · rintro e rfl
    rfl
  · rintro value rfl
    exact ⟨_, _, rfl⟩

/-- A backward search needs its goal. -/
theorem needs_backward (space : Space) (id : Id) (rounds : Nat) :
    space.Needs id (space.backward id rounds) := by
  unfold Needs backward Store.contains
  split
  · next hget => rw [hget]; rfl
  · next hget => rw [hget]; exact ⟨_, _, rfl⟩

/-- A revision needs the atom whose truth it revises. -/
theorem needs_revise (space : Space) (id : Id) (evidence : Truth) :
    space.Needs id (space.revise id evidence) := by
  refine needs_of (space.store.needs_updateTruth id fun current => current.revision evidence) ?_ ?_
  · intro e herror
    rw [revise, Store.reviseTruth, herror]
  · intro value hvalue
    rw [revise, Store.reviseTruth, hvalue]
    exact ⟨_, _, rfl⟩

/-- An allocation needs the atom that it raises. -/
theorem needs_allocate (space : Space) (id : Id) (delta : Int32) :
    space.Needs id (space.allocate id delta) := by
  refine needs_of (space.store.needs_addSti id delta) ?_ ?_
  · intro e herror
    rw [allocate, herror]
  · intro value hvalue
    rw [allocate, hvalue]
    exact ⟨_, _, rfl⟩

/-- Every request needs its atom. -/
theorem needs_ask (space : Space) (id : Id) (request : Request) :
    space.Needs id (space.ask id request) := by
  cases request with
  | delete => exact needs_onStore ((space.store.needs_delete id).map _)
  | setTruth truth => exact needs_onStore (((space.store.needs_updateTruth id _).map _).map _)
  | setAttention attention =>
    exact needs_onStore (((space.store.needs_updateAttention id _).map _).map _)
  | reviseTruth evidence => exact (needs_onStore (space.store.needs_updateTruth id _)).answering _
  | addSti delta => exact (needs_onStore (space.store.needs_addSti id delta)).answering _
  | spread mode => exact (needs_onStore (space.store.needs_spread id mode)).answering _
  | backward rounds => exact (space.needs_backward id rounds).answering _
  | evaluate => exact needs_reading (((space.store.needs_get id).map _).map _)
  | revise evidence => exact (space.needs_revise id evidence).answering _
  | stimulate delta => exact (needs_onStore (space.store.needs_addSti id delta)).answering _
  | attention => exact needs_reading (((space.store.needs_get id).map _).map _)
  | spreadByReasoner => exact (needs_onStore (space.store.needs_spread id _)).answering _
  | allocate delta => exact (space.needs_allocate id delta).answering _
  | spreadByAllocator => exact (needs_onStore (space.store.needs_spread id _)).answering _

/-- A request about a dead atom is refused with its id and leaves the space as it was. -/
theorem ask_missing (h : space.store.get? id = none) (request : Request) :
    space.ask id request = (.error (.notFound id), space) := by
  have hneeds := space.needs_ask id request
  rwa [Needs, h] at hneeds

/-- A request about a live atom succeeds. -/
theorem exists_ask_live {a : Atom} (h : space.store.get? id = some a) (request : Request) :
    ∃ reply after, space.ask id request = (.ok reply, after) := by
  have hneeds := space.needs_ask id request
  rwa [Needs, h] at hneeds

/-- What a request about a live atom does to the store: it deletes the atom, writes its values, spreads from
it, or only reads. -/
theorem store_ask_cases {a : Atom} (h : space.store.get? id = some a) (request : Request) :
    (request = .delete ∧ (space.ask id request).2.store
        = { space.store.unfile a with byId := space.store.byId.erase id }) ∨
      (∃ w, request.write? id = some w ∧
        (space.ask id request).2.store = space.store.modify w.id w.truth w.attention) ∨
      (∃ mode, (space.ask id request).2.store = (space.store.spreadFrom a mode).2) ∨
      (space.ask id request).2.store = space.store := by
  cases request with
  | delete => exact .inl ⟨rfl, by simp only [ask, Store.delete, h]; rfl⟩
  | setTruth truth =>
    exact .inr (.inl ⟨_, rfl, by simp only [ask, Store.setTruth, Store.updateTruth, h]; rfl⟩)
  | setAttention attention =>
    exact .inr (.inl ⟨_, rfl, by simp only [ask, Store.setAttention, Store.updateAttention, h]; rfl⟩)
  | reviseTruth evidence =>
    exact .inr (.inl ⟨_, rfl, by simp only [ask, Store.reviseTruth, Store.updateTruth, h]; rfl⟩)
  | revise evidence =>
    exact .inr (.inl ⟨_, rfl, by simp only [ask, revise, Store.reviseTruth, Store.updateTruth, h]; rfl⟩)
  | addSti delta =>
    exact .inr (.inl ⟨_, rfl, by simp only [ask, Store.addSti, Store.updateAttention, h]; rfl⟩)
  | stimulate delta =>
    exact .inr (.inl ⟨_, rfl, by simp only [ask, stimulate, Store.addSti, Store.updateAttention, h]; rfl⟩)
  | allocate delta =>
    exact .inr (.inl ⟨_, rfl, by simp only [ask, allocate, Store.addSti, Store.updateAttention, h]; rfl⟩)
  | spread mode =>
    exact .inr (.inr (.inl ⟨mode, by simp only [ask, Store.spread, Store.get, h]; rfl⟩))
  | spreadByReasoner =>
    exact .inr (.inr (.inl ⟨_, by simp only [ask, spreadByReasoner, Store.spread, Store.get, h]; rfl⟩))
  | spreadByAllocator =>
    exact .inr (.inr (.inl ⟨_, by simp only [ask, spreadByAllocator, Store.spread, Store.get, h]; rfl⟩))
  | backward rounds => exact .inr (.inr (.inr (by simp only [ask, backward, Store.contains, h]; rfl)))
  | evaluate => exact .inr (.inr (.inr rfl))
  | attention => exact .inr (.inr (.inr rfl))

/-- An action is about an atom that is not there. -/
def Misses (space : Space) : Action → Prop
  | .about id _ => space.store.get? id = none
  | _ => False

instance (space : Space) : DecidablePred space.Misses
  | .about id _ => inferInstanceAs (Decidable (space.store.get? id = none))
  | .createNode .. | .createLink .. | .reserve | .forward .. | .chain .. | .addRule .. | .resetLedger
  | .updateFocus | .decay .. => inferInstanceAs (Decidable False)

/-- A run without the requests about atoms that are not there when their turn comes. -/
def effective : Space → List Action → List Action
  | _, [] => []
  | space, action :: actions =>
    let rest := effective (space.act action).2 actions
    if space.Misses action then rest else action :: rest

/-- An action about a dead atom changes nothing. -/
theorem act_of_misses {action : Action} (h : space.Misses action) : (space.act action).2 = space := by
  cases action with
  | about id request => rw [act, ask_missing h]
  | _ => exact h.elim

/-- The requests that are refused make no difference to where a run ends. -/
theorem run_effective (space : Space) (actions : List Action) :
    (space.run (space.effective actions)).2 = (space.run actions).2 := by
  induction actions generalizing space with
  | nil => rfl
  | cons action actions ih =>
    rw [effective]
    -- a dropped request left the space as it was, so that the rest begins at the same one
    by_cases hmisses : space.Misses action
    · rw [if_pos hmisses]
      rw [run, act_of_misses hmisses]
      exact ih space
    · rw [if_neg hmisses]
      exact ih _

/-- A request about an atom fails exactly when no live atom has the id. It fails with that id and
leaves the whole space as it was, so a run ends where it would have ended without such requests. -/
theorem missing_changes_nothing (space : Space) (id : Id) (request : Request) :
    (∀ e, (space.ask id request).1 = .error e ↔ e = .notFound id ∧ space.store.get? id = none) ∧
      (space.store.get? id = none ↔ space.ask id request = (.error (.notFound id), space)) ∧
      ∀ actions, (space.run (space.effective actions)).2 = (space.run actions).2 := by
  refine ⟨fun e => ?_, ?_, space.run_effective⟩
  all_goals
    -- whether the id is live decides the outcome, for each of the requests
    cases hget : space.store.get? id with
    | none => simp [ask_missing hget, eq_comm]
    | some a =>
      obtain ⟨reply, after, hask⟩ := exists_ask_live hget request
      simp [hask]

end Space

end BeliefGraph
