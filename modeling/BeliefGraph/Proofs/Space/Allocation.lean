import Mathlib.Algebra.Order.BigOperators.Group.List
import Mathlib.Data.List.Induction
import BeliefGraph.Proofs.Space.Focus

/-!
# Allocations in any order

An allocation adds to the importance of one atom and computes the focus anew. Sums that are only cut off at
the largest importance do not depend on the order of what is added, as long as nothing is taken away
(`Atom.raised_raised`), and the focus depends on the importance of the atoms alone. So a sequence of
allocations comes to the same in every order (`Space.allocations_commute`): each live atom has what all its
calls add up to, and the focus is the top of that.

`Space.Allocated` is what a sequence comes to, and it is carried over one more call at the end
(`Space.Allocated.concat`).
-/

namespace BeliefGraph

/-- A call that adds to the short-term importance of the atom with an id. -/
structure Allocation where
  id : Id
  delta : Int32

namespace Allocation

def action (call : Allocation) : Action := .about call.id (.allocate call.delta)

/-- What some calls add to the importance of the atom with an id. -/
def total (calls : List Allocation) (id : Id) : ℤ :=
  ((calls.filter (·.id = id)).map (·.delta.toInt)).sum

variable {calls calls' : List Allocation} {call : Allocation} {id : Id}

/-- One more call adds its part to the total of its own atom. -/
theorem total_concat (calls : List Allocation) (call : Allocation) (id : Id) :
    total (calls ++ [call]) id = total calls id + if call.id = id then call.delta.toInt else 0 := by
  rw [total, total, List.filter_append, List.map_append, List.sum_append]
  by_cases hid : call.id = id <;> simp [hid]

/-- Calls that only add have no negative total. -/
theorem total_nonneg (h : ∀ call ∈ calls, 0 ≤ call.delta.toInt) (id : Id) : 0 ≤ total calls id := by
  refine List.sum_nonneg fun n hn => ?_
  obtain ⟨call, hcall, rfl⟩ := List.mem_map.mp hn
  exact h call (List.mem_of_mem_filter hcall)

/-- The order of the calls does not matter for a total. -/
theorem total_perm (h : calls.Perm calls') (id : Id) : total calls id = total calls' id :=
  ((h.filter _).map _).sum_eq

end Allocation

/-! ## Interleavings -/

/-- A sequence takes the calls of several clients, those of each client in their order. -/
inductive Interleaves {α : Type} : List (List α) → List α → Prop
  | done {clients : List (List α)} (h : ∀ client ∈ clients, client = []) : Interleaves clients []
  | next {front behind : List (List α)} {call : α} {rest calls : List α}
      (h : Interleaves (front ++ rest :: behind) calls) :
      Interleaves (front ++ (call :: rest) :: behind) (call :: calls)

/-- However the calls of the clients interleave, they are the calls of all clients together. -/
theorem Interleaves.perm {α : Type} {clients : List (List α)} {calls : List α}
    (h : Interleaves clients calls) : calls.Perm clients.flatten := by
  induction h with
  | done h => rw [List.flatten_eq_nil_iff.mpr h]
  | @next front behind call rest calls _ ih =>
    refine (ih.cons call).trans ?_
    rw [List.flatten_append, List.flatten_append, List.flatten_cons, List.flatten_cons, List.cons_append]
    exact List.perm_middle.symm

/-! ## Sums that are cut off -/

/-- An importance that is in the range stays as it is. -/
theorem clampImportance_toInt (sti : Int32) : clampImportance sti.toInt = sti := by
  have hlow := sti.le_toInt
  have hhigh := sti.toInt_lt
  rw [← Int32.toInt_inj, toInt_clampImportance_of_le] <;> omega

namespace Atom

variable {a : Atom} {m n : ℤ}

/-- To raise by nothing changes nothing. -/
theorem raised_zero (a : Atom) : a.raised 0 = a := by
  rw [raised, Int.add_zero, clampImportance_toInt, withSti_sti]

/-- A raise is added in full, up to the largest importance. -/
theorem toInt_raised (hn : 0 ≤ n) :
    (a.raised n).sti.toInt = min (Store.largestImportance : ℤ) (a.sti.toInt + n) := by
  have hbounds := a.sti_bounds
  show (clampImportance (a.sti.toInt + n)).toInt = _
  rw [toInt_clampImportance, Store.largestImportance]
  omega

/-- What has been cut off stays cut off. -/
theorem raised_raised (hm : 0 ≤ m) (hn : 0 ≤ n) : (a.raised m).raised n = a.raised (m + n) := by
  have hsum : (a.raised m).sti.toInt = _ := toInt_raised hm
  refine congrArg a.withSti (Int32.toInt_inj.mp ?_)
  rw [hsum, toInt_clampImportance, toInt_clampImportance, Store.largestImportance]
  have hbounds := a.sti_bounds
  omega

/-- The atom with all that some calls add to it. -/
def allotted (calls : List Allocation) (a : Atom) : Atom := a.raised (Allocation.total calls a.id)

end Atom

/-! ## One call -/

namespace Space

variable {space mid after after' : Space} {calls calls' : List Allocation} {call : Allocation}

/-- A call for an atom that is not live is refused, and any other one raises its importance. -/
theorem act_allocation (space : Space) (call : Allocation) :
    (space.store.get? call.id = none ∧ space.act call.action = (.error (.notFound call.id), space)) ∨
      ∃ a, space.store.get? call.id = some a ∧ space.act call.action
        = (.ok (.sti (addImportance a.sti call.delta)),
            updateFocus { space with store := space.store.raise call.delta.toInt call.id }) := by
  cases hget : space.store.get? call.id with
  | none => exact .inl ⟨rfl, ask_missing hget (.allocate call.delta)⟩
  | some a =>
    refine .inr ⟨a, rfl, ?_⟩
    simp only [Allocation.action, act, ask, allocate, Store.addSti, Store.updateAttention, hget]
    rfl

/-- A call raises the atom that it names, if there is one, and changes no other. -/
theorem revalued_act_allocation (hs : space.store.Sound) (call : Allocation) :
    space.store.Revalued (fun a => if a.id = call.id then a.raised call.delta.toInt else a)
      (space.act call.action).2.store := by
  rcases space.act_allocation call with ⟨hget, hact⟩ | ⟨a, -, hact⟩
  · rw [hact]
    -- No live atom has the id.
    refine ⟨(Atom.KeepsStructure.ofSti _).ite _, fun x => ?_, rfl, rfl, rfl, rfl⟩
    cases hx : space.store.get? x with
    | none => rfl
    | some b =>
      have hid : b.id ≠ call.id := by
        rintro hid
        rw [← hid, hs.keyed hx, hx] at hget
        exact nomatch hget
      rw [Option.map_some, if_neg hid]
  · rw [hact]
    exact hs.revalued_raise call.delta.toInt call.id

/-- A call succeeds exactly if its atom is live. -/
theorem isOk_act_allocation (space : Space) (call : Allocation) :
    (space.act call.action).1.isOk = space.store.contains call.id := by
  rcases space.act_allocation call with ⟨hget, hact⟩ | ⟨a, hget, hact⟩ <;>
    rw [hact, Store.contains, hget] <;> rfl

/-! ## Sequences of calls -/

/-- What a sequence of calls comes to. -/
structure Allocated (space : Space) (calls : List Allocation) (after : Space) : Prop where
  /-- Each live atom has all that its calls add up to, and nothing else about the atoms changes. -/
  revalued : space.store.Revalued (Atom.allotted calls) after.store
  /-- The focus is the top of that once a call has found its atom, and otherwise what it was. -/
  top : (∃ call ∈ calls, space.store.contains call.id = true) →
    after.store.IsTop space.allocator.focusSize after.allocator.focus
  kept : (∀ call ∈ calls, space.store.contains call.id = false) →
    after.allocator.focus = space.allocator.focus
  /-- Nothing else in the space changes. -/
  frame : after = { space with
    store := after.store
    allocator := { space.allocator with focus := after.allocator.focus } }

/-- Without calls, the space is as it was. -/
theorem Allocated.nil (space : Space) : space.Allocated [] space where
  revalued := (Store.Revalued.refl _).congr Atom.raised_zero
  top := by simp
  kept _ := rfl
  frame := rfl

/-- One more call. -/
theorem Allocated.concat (hs : space.store.Sound) (hcalls : ∀ call ∈ calls, 0 ≤ call.delta.toInt)
    (hcall : 0 ≤ call.delta.toInt) (h : space.Allocated calls mid) :
    space.Allocated (calls ++ [call]) (mid.act call.action).2 := by
  have hmid := h.revalued.sound hs
  have hrevalued := (h.revalued.trans (revalued_act_allocation hmid call)).congr
    (g := Atom.allotted (calls ++ [call])) fun a => by
      have htotal := Allocation.total_nonneg hcalls a.id
      -- two raises of one atom saturate like one raise by their sum, because neither is negative
      show a.raised _ = if a.id = call.id then (a.raised _).raised _ else a.raised _
      rw [Allocation.total_concat]
      by_cases hid : a.id = call.id
      · rw [if_pos hid, if_pos hid.symm, Atom.raised_raised htotal hcall]
      · rw [if_neg hid, if_neg (Ne.symm hid), Int.add_zero]
  have hsize : mid.allocator.focusSize = space.allocator.focusSize := by rw [h.frame]
  -- a call for a dead atom fails, and changes neither the importances nor the focus
  rcases mid.act_allocation call with ⟨hget, hact⟩ | ⟨a, hget, hact⟩
  · have hdead : space.store.contains call.id = false := by
      rw [← h.revalued.contains_eq, Store.contains, hget, Option.isSome_none]
    rw [hact] at hrevalued ⊢
    refine ⟨hrevalued, fun hlive => h.top ?_, fun hnone => h.kept fun c hc => ?_, h.frame⟩
    · obtain ⟨c, hc, hlive⟩ := hlive
      refine ⟨c, (List.mem_append.mp hc).resolve_right fun hlast => ?_, hlive⟩
      rw [List.mem_singleton.mp hlast, hdead] at hlive
      exact Bool.false_ne_true hlive
    · exact hnone c (List.mem_append_left _ hc)
  · have hlive : space.store.contains call.id = true := by
      rw [← h.revalued.contains_eq, Store.contains, hget, Option.isSome_some]
    have hrefocuses : mid.Refocuses call.action :=
      ⟨trivial, by rw [mid.isOk_act_allocation, h.revalued.contains_eq, hlive]⟩
    -- the last call that succeeds computes the focus from all of the store
    have htop := isTop_of_refocuses hmid hrefocuses
    rw [hsize] at htop
    refine ⟨hrevalued, fun _ => htop, fun hnone => ?_, ?_⟩
    · rw [hnone call (List.mem_append_right _ List.mem_cons_self)] at hlive
      exact absurd hlive Bool.false_ne_true
    · rw [hact, h.frame]
      rfl

/-- Calls that only add leave each atom with their total, in whatever order they came. -/
theorem allocated_run (hs : space.store.Sound) (hcalls : ∀ call ∈ calls, 0 ≤ call.delta.toInt) :
    space.Allocated calls (space.run (calls.map Allocation.action)).2 := by
  -- The calls are taken from the end, because it is the last one that settles the focus.
  induction calls using List.reverseRecOn with
  | nil => exact .nil space
  | append_singleton calls call ih =>
    obtain ⟨hcalls, hcall⟩ := List.forall_mem_append.mp hcalls
    rw [List.map_append, run_append]
    exact (ih hcalls).concat hs hcalls (hcall call List.mem_cons_self)

/-- A call succeeds exactly when its atom is live. -/
theorem isOk_run_allocations (hs : space.store.Sound) (calls : List Allocation) :
    (space.run (calls.map Allocation.action)).1.map Except.isOk
      = calls.map fun call => space.store.contains call.id := by
  induction calls generalizing space with
  | nil => rfl
  | cons call calls ih =>
    have hfirst := revalued_act_allocation hs call
    simp only [List.map_cons, run, isOk_act_allocation, ih (hfirst.sound hs), hfirst.contains_eq]

/-- Two spaces agree in their atoms, with all values, and in what the allocator knows of them. -/
structure SameAttention (space after : Space) : Prop where
  get? : after.store.get? = space.store.get?
  atoms : after.store.atoms = space.store.atoms
  allocator : after.allocator = space.allocator
  focus : after.focus = space.focus

/-- What a sequence comes to depends on how much each atom is given and on whether a call finds its atom. -/
theorem Allocated.sameAttention (hs : space.store.Sound) (h : space.Allocated calls after)
    (h' : space.Allocated calls' after') (hperm : calls'.Perm calls) : after.SameAttention after' := by
  have hallotted : Atom.allotted calls' = Atom.allotted calls := funext fun a => by
    rw [Atom.allotted, Allocation.total_perm hperm, Atom.allotted]
  have hrevalued := h'.revalued
  rw [hallotted] at hrevalued
  have hget : after'.store.get? = after.store.get? := funext fun id => by
    rw [hrevalued.get?, h.revalued.get?]
  have hatoms : after'.store.atoms = after.store.atoms := by
    rw [hrevalued.atoms_eq hs, h.revalued.atoms_eq hs]
  have hfocus : after'.allocator.focus = after.allocator.focus := by
    -- the focus depends on the atoms alone, unless no call succeeded and it was never computed
    by_cases hlive : ∃ call ∈ calls, space.store.contains call.id = true
    · have hlive' : ∃ call ∈ calls', space.store.contains call.id = true := by
        obtain ⟨call, hcall, hlive⟩ := hlive
        exact ⟨call, hperm.mem_iff.mpr hcall, hlive⟩
      exact (h.top hlive).eq (h'.top hlive') hatoms
    · simp only [not_exists, not_and, Bool.not_eq_true] at hlive
      rw [h.kept hlive, h'.kept fun call hcall => hlive call (hperm.mem_iff.mp hcall)]
  have hallocator : after'.allocator = after.allocator := by
    rw [h'.frame, h.frame]
    simp only [hfocus]
  refine ⟨hget, hatoms, hallocator, ?_⟩
  rw [focus, focus, Store.resolveAll, Store.resolveAll, hget, hallocator]

/-- Allocations that take nothing away come to the same in every order, and so in every interleaving of what
several clients ask for. Each live atom ends with what it had and all that its calls add up to, cut off at
the largest importance. The focus is the top of that if a call succeeded, that is, found its atom, and
otherwise stays as it was. -/
theorem allocations_commute (space : Space) (hs : space.store.Sound)
    (hcalls : ∀ call ∈ calls, 0 ≤ call.delta.toInt) :
    let outcome := space.run (calls.map Allocation.action)
    space.Allocated calls outcome.2 ∧
      (∀ a : Atom, (a.allotted calls).sti.toInt
        = min (Store.largestImportance : ℤ) (a.sti.toInt + Allocation.total calls a.id)) ∧
      outcome.1.map Except.isOk = calls.map (fun call => space.store.contains call.id) ∧
      (∀ calls' : List Allocation, calls'.Perm calls →
        outcome.2.SameAttention (space.run (calls'.map Allocation.action)).2) ∧
      ∀ clients, Interleaves clients calls → ∀ calls', Interleaves clients calls' →
        outcome.2.SameAttention (space.run (calls'.map Allocation.action)).2 := by
  intro outcome
  have hallocated : space.Allocated calls outcome.2 := allocated_run hs hcalls
  have hperm : ∀ calls' : List Allocation, calls'.Perm calls →
      outcome.2.SameAttention (space.run (calls'.map Allocation.action)).2 := fun calls' h =>
    hallocated.sameAttention hs
      (allocated_run hs fun call hcall => hcalls call (h.mem_iff.mp hcall)) h
  exact ⟨hallocated, fun a => Atom.toInt_raised (Allocation.total_nonneg hcalls a.id),
    isOk_run_allocations hs calls, hperm,
    fun clients h calls' h' => hperm calls' (h'.perm.trans h.perm.symm)⟩

/-- Two nodes. -/
def twoNodes : Space :=
  ((ofSettings {}).run [.createNode .concept (some "a"), .createNode .concept (some "b")]).2

/-- One client gives the first node all there can be, and then some to the second one. Another client asks
for an atom that is not there, and then gives the first node more. -/
def twoClients : List (List Allocation) :=
  [[⟨1, 0x7fffffff⟩, ⟨2, 3⟩], [⟨9, 5⟩, ⟨1, 7⟩]]

/-- The calls of one client between those of the other, and behind them. -/
theorem allocations_commute_twoClients :
    ∃ calls calls' : List Allocation,
      calls = [⟨1, 0x7fffffff⟩, ⟨9, 5⟩, ⟨1, 7⟩, ⟨2, 3⟩] ∧
      calls' = [⟨9, 5⟩, ⟨1, 7⟩, ⟨1, 0x7fffffff⟩, ⟨2, 3⟩] ∧
      twoNodes.store.Sound ∧ (∀ call ∈ calls, 0 ≤ call.delta.toInt) ∧
      Interleaves twoClients calls ∧ Interleaves twoClients calls' ∧
      (twoNodes.run (calls.map Allocation.action)).2.SameAttention
        (twoNodes.run (calls'.map Allocation.action)).2 ∧
      (twoNodes.run (calls'.map Allocation.action)).2.store.atoms.map Atom.sti = [0x7fffffff, 3] ∧
      (twoNodes.run (calls'.map Allocation.action)).1.map Except.isOk = [false, true, true, true] := by
  have hs : twoNodes.store.Sound := (Reachable.filed ⟨{}, _, rfl⟩).sound
  have hcalls : ∀ call ∈ ([⟨1, 0x7fffffff⟩, ⟨9, 5⟩, ⟨1, 7⟩, ⟨2, 3⟩] : List Allocation),
      0 ≤ call.delta.toInt := by decide
  have hdone : Interleaves [[], []] ([] : List Allocation) := .done (by simp)
  have h : Interleaves twoClients [⟨1, 0x7fffffff⟩, ⟨9, 5⟩, ⟨1, 7⟩, ⟨2, 3⟩] :=
    @Interleaves.next _ [] _ _ _ _ (@Interleaves.next _ [_] _ _ _ _
      (@Interleaves.next _ [_] _ _ _ _ (@Interleaves.next _ [] _ _ _ _ hdone)))
  have h' : Interleaves twoClients [⟨9, 5⟩, ⟨1, 7⟩, ⟨1, 0x7fffffff⟩, ⟨2, 3⟩] :=
    @Interleaves.next _ [_] _ _ _ _ (@Interleaves.next _ [_] _ _ _ _
      (@Interleaves.next _ [] _ _ _ _ (@Interleaves.next _ [] _ _ _ _ hdone)))
  obtain ⟨-, -, -, -, hinterleaved⟩ := allocations_commute twoNodes hs hcalls
  exact ⟨_, _, rfl, rfl, hs, hcalls, h, h', hinterleaved _ h _ h', by decide, by decide⟩

end Space

end BeliefGraph
