import BeliefGraph.Proofs.Space.Evolution
import BeliefGraph.Proofs.Store.Conservation

/-!
# Spreading in a space

A spread can be asked for in a mode, or through the allocator or the reasoner in theirs; all three do the
same to the store (`Space.ask_spread`). `Space.Reachable.spread_exact` is what they do, whatever was done
to the space before.

Conservative spreads keep the total of short-term importance but for what is cut off at the largest
importance: the source pays for it and no link is given it. A run of them loses what its spreads lose
(`Space.Reachable.budget_spreads`).
-/

namespace BeliefGraph.Space

variable {space : Space} {request : Request} {mode : SpreadMode} {actions : List Action}

/-- The mode in which a request spreads. -/
def spreadMode? (space : Space) : Request → Option SpreadMode
  | .spread mode => some mode
  | .spreadByReasoner => some space.reasoner.spreadMode
  | .spreadByAllocator => some space.allocator.spreadMode
  | _ => none

/-- Each of the three requests that spread is a spread of the store, in its own mode. -/
theorem ask_spread (h : space.spreadMode? request = some mode) (id : Id) :
    space.ask id request = answering .spread (space.onStore (space.store.spread id mode)) := by
  cases request with
  | spread | spreadByReasoner | spreadByAllocator =>
    cases h
    rfl
  | _ => exact nomatch h

/-- A spread from a live atom answers what was spread and leaves the rest of the space as it was. -/
theorem ask_spread_live (h : space.spreadMode? request = some mode) {source : Atom}
    (hget : space.store.get? source.id = some source) :
    space.ask source.id request
      = (.ok (.spread (space.store.spreadFrom source mode).1),
          { space with store := (space.store.spreadFrom source mode).2 }) := by
  rw [ask_spread h, Store.spread, Store.get, hget]
  rfl

/-! ## One spread -/

/-- A spread from a live atom does exactly this: nothing without importance or links that reference the
source, and otherwise it moves importance to each of these links. -/
theorem Reachable.spread_exact (h : space.Reachable) {source : Atom} (hsource : source ∈ space.store.atoms)
    (hfew : (space.store.scanIncoming source.id).length < Store.largestImportance)
    (hmode : space.spreadMode? request = some mode) :
    ∃ spread after,
      space.ask source.id request = (.ok (.spread spread), { space with store := after }) ∧
      (source.sti.toInt ≤ 0 ∨ space.store.scanIncoming source.id = [] →
        spread = ⟨0, []⟩ ∧ after = space.store) ∧
      (0 < source.sti.toInt → space.store.scanIncoming source.id ≠ [] →
        space.store.Moves source mode spread after) := by
  have hs := h.filed
  have hask := ask_spread_live hmode (hs.sound.mem_atoms.mp hsource)
  refine ⟨_, _, hask, fun hquiet => ?_, fun hpos hlinks => ?_⟩
  · have hcannot : ¬ space.store.CanSpread source := by
      rwa [Store.CanSpread, not_and_or, not_lt, not_not]
    rw [Store.spreadFrom_of_not_canSpread hs hsource hcannot]
    exact ⟨rfl, rfl⟩
  · exact Store.CanSpread.moves ⟨hpos, hlinks⟩ hs hsource hfew mode

/-- A link that references itself twice. Two more links reference it: one with hardly any room left, which
references itself, too, and one that lists it twice. -/
def crowdedActions : List Action :=
  [.createLink .list ⟨[1, 1], by decide, by decide⟩, .createLink .list ⟨[2, 1], by decide, by decide⟩,
    .createLink .list ⟨[1, 3, 1], by decide, by decide⟩, .about 1 (.addSti 100),
    .about 2 (.addSti 0x7ffffff0), .about 3 (.setAttention ⟨-5, 7, 9⟩)]

def crowded : Space := ((ofSettings {}).run crowdedActions).2

def crowdedHub : Atom := { Atom.new 1 .list (.link [1, 1]) with attention := ⟨100, 0, 0⟩ }

/-- The source is its own recipient, and another one is cut off at the end of the range. -/
theorem Reachable.spread_exact_crowded :
    crowded.Reachable ∧ crowdedHub ∈ crowded.store.atoms ∧
      (crowded.store.scanIncoming 1).length < Store.largestImportance ∧
      ∃ spread after,
        crowded.ask 1 (.spread .conservative) = (.ok (.spread spread), { crowded with store := after }) ∧
        spread = ⟨25, [1, 2, 3]⟩ ∧ after.atoms.map Atom.sti = [50, 0x7fffffff, 20] ∧
        crowded.store.Moves crowdedHub .conservative spread after := by
  have hs : crowded.Reachable := ⟨{}, crowdedActions, rfl⟩
  have hhub : crowdedHub ∈ crowded.store.atoms := by decide
  have hfew : (crowded.store.scanIncoming 1).length < Store.largestImportance := by decide
  have hmode : crowded.spreadMode? (.spread .conservative) = some .conservative := rfl
  obtain ⟨spread, after, hspread, -, hmoves⟩ := hs.spread_exact hhub hfew hmode
  have heval : crowded.ask 1 (.spread .conservative)
      = (.ok (.spread (crowded.store.spreadFrom crowdedHub .conservative).1),
          { crowded with store := (crowded.store.spreadFrom crowdedHub .conservative).2 }) := rfl
  obtain ⟨hreply, hafter⟩ := Prod.mk.inj (hspread.symm.trans heval)
  cases hreply
  obtain rfl := congrArg Space.store hafter
  exact ⟨hs, hhub, hfew, _, _, heval, by decide, by decide, hmoves (by decide) (by decide)⟩

/-! ## Runs of conservative spreads -/

/-- An action spreads, and the source pays for it. -/
def SpreadsConservatively (space : Space) : Action → Prop
  | .about _ request => space.spreadMode? request = some .conservative
  | _ => False

/-- What the total of short-term importance loses by an action that spreads conservatively. -/
def lostBy (space : Space) : Action → ℤ
  | .about id _ =>
    match space.store.get? id with
    | some source =>
      if 0 < source.sti.toInt then space.store.cutOff source - space.store.unpaid source else 0
    | none => 0
  | _ => 0

/-- What it loses by a run of them. -/
def lost : Space → List Action → ℤ
  | _, [] => 0
  | space, action :: actions => space.lostBy action + lost (space.act action).2 actions

/-- Each link that references the source of a spread has room for its share. -/
def HasRoom (space : Space) : Action → Prop
  | .about id _ =>
    ∀ source, space.store.get? id = some source → 0 < source.sti.toInt →
      ∀ link ∈ space.store.scanIncoming source.id,
        link.sti.toInt + space.store.shareOfLinks source ≤ Store.largestImportance
  | _ => True

/-- The same of each spread of a run when its turn comes. -/
def HaveRoom : Space → List Action → Prop
  | _, [] => True
  | space, action :: actions => space.HasRoom action ∧ HaveRoom (space.act action).2 actions

/-- A conservative spread changes the store only, and its total by what is lost. -/
theorem exists_act_conservative (hs : space.store.Filed) {action : Action}
    (haction : space.SpreadsConservatively action) :
    ∃ after, (space.act action).2 = { space with store := after } ∧ after.Filed ∧
      after.size = space.store.size ∧
      after.total Attention.sti = space.store.total Attention.sti - space.lostBy action ∧
      after.total Attention.lti = space.store.total Attention.lti := by
  cases action with
  | about id request =>
    cases hget : space.store.get? id with
    | none =>
      rw [act, ask_missing hget]
      exact ⟨space.store, rfl, hs, rfl, by simp [lostBy, hget], rfl⟩
    | some source =>
      obtain rfl := hs.sound.keyed hget
      have hsource := hs.sound.mem_atoms.mpr hget
      rw [act, ask_spread_live haction hget]
      have hevolves := hs.sound.evolves_spreadFrom source .conservative
      refine ⟨_, rfl, hs.evolves hevolves, ?_⟩
      simp only [lostBy, hget]
      by_cases h : space.store.CanSpread source
      · rw [if_pos h.1]
        obtain ⟨-, -, f, hrevalued, -⟩ := h.exists_revalued hs hsource .conservative
        exact ⟨hrevalued.size_eq hs.sound, h.total_spreadFrom hs hsource,
          h.total_lti_spreadFrom hs hsource .conservative⟩
      · rw [Store.spreadFrom_of_not_canSpread hs hsource h]
        refine ⟨rfl, ?_, rfl⟩
        split
        · next hpos =>
          -- There are no links, so nothing is cut off and nothing left unpaid.
          have hnone : space.store.scanIncoming source.id = [] := by
            rwa [Store.CanSpread, not_and, not_not, imp_iff_right hpos] at h
          simp [Store.cutOff, Store.unpaid, Store.receivers, hnone]
        · rw [Int.sub_zero]
  | _ => exact haction.elim

/-- The same actions spread conservatively in a space that differs in the store only. -/
theorem spreadsConservatively_withStore (after : Store) {action : Action} :
    ({ space with store := after } : Space).SpreadsConservatively action
      ↔ space.SpreadsConservatively action := by
  cases action with
  | about id request => cases request <;> rfl
  | _ => rfl

/-- The budget after a run of conservative spreads. -/
theorem budget_spreads (hs : space.store.Filed)
    (hactions : ∀ action ∈ actions, space.SpreadsConservatively action) :
    (space.run actions).2.budget
      = { space.budget with allocatedSti := space.budget.allocatedSti - space.lost actions } := by
  induction actions generalizing space with
  | nil => simp [run, lost]
  | cons action actions ih =>
    obtain ⟨hfirst, hrest⟩ := List.forall_mem_cons.mp hactions
    obtain ⟨after, hact, hfiled, -, hsti, hlti⟩ := exists_act_conservative hs hfirst
    rw [run, lost, hact, ih hfiled fun action h => (spreadsConservatively_withStore after).mpr (hrest action h)]
    simp only [budget, hsti, hlti, Int.sub_sub]

/-- A spread loses nothing exactly when each link has room for its share, among few enough atoms. -/
theorem lostBy_cases (hsize : space.store.size ≤ Store.largestImportance) (action : Action) :
    0 ≤ space.lostBy action ∧ (space.lostBy action = 0 ↔ space.HasRoom action) := by
  cases action with
  | about id request =>
    simp only [lostBy, HasRoom]
    cases hget : space.store.get? id with
    | none => simp
    | some source =>
      simp only [Option.some.injEq, forall_eq', Store.unpaid_eq_zero hsize, Int.sub_zero]
      split
      · next hpos =>
        rw [imp_iff_right hpos]
        exact space.store.cutOff_cases source
      · next hpos => exact ⟨Int.le_refl 0, iff_of_true rfl fun h => absurd h hpos⟩
  | _ => exact ⟨Int.le_refl 0, iff_of_true rfl trivial⟩

/-- Conservative spreads lose nothing or something, and nothing exactly if each link had room for its
share. -/
theorem lost_cases (hs : space.store.Filed) (hsize : space.store.size ≤ Store.largestImportance)
    (hactions : ∀ action ∈ actions, space.SpreadsConservatively action) :
    0 ≤ space.lost actions ∧ (space.lost actions = 0 ↔ space.HaveRoom actions) := by
  induction actions generalizing space with
  | nil => exact ⟨Int.le_refl 0, iff_of_true rfl trivial⟩
  | cons action actions ih =>
    obtain ⟨hfirst, hrest⟩ := List.forall_mem_cons.mp hactions
    obtain ⟨after, hact, hfiled, hsame, -⟩ := exists_act_conservative hs hfirst
    have hone := lostBy_cases hsize action
    -- a spread makes and deletes no atoms, so that the bound on their number lasts through the run
    have hmore := ih hfiled (hsame.trans_le hsize) fun action h =>
      (spreadsConservatively_withStore after).mpr (hrest action h)
    rw [lost, HaveRoom, hact, ← hone.2, ← hmore.2]
    omega

/-- A run of conservative spreads changes nothing in the budget but the total of short-term importance,
which falls by what is lost. Among fewer atoms than the largest importance it never rises, and stays the
same exactly when each link has room for the shares that it is given. -/
theorem Reachable.conservative_spreads (h : space.Reachable)
    (hactions : ∀ action ∈ actions, space.SpreadsConservatively action) :
    (space.run actions).2.budget
        = { space.budget with allocatedSti := space.budget.allocatedSti - space.lost actions } ∧
      (space.store.size ≤ Store.largestImportance →
        (space.run actions).2.budget.allocatedSti ≤ space.budget.allocatedSti ∧
        ((space.run actions).2.budget.allocatedSti = space.budget.allocatedSti
          ↔ space.HaveRoom actions)) := by
  have hbudget := budget_spreads h.filed hactions
  refine ⟨hbudget, fun hsize => ?_⟩
  obtain ⟨hnonneg, hroom⟩ := lost_cases h.filed hsize hactions
  rw [hbudget, ← hroom]
  dsimp only
  omega

/-- A link has all the importance there can be, and a node that it references has some. -/
def brimmingActions : List Action :=
  [.createNode .concept (some "a"), .createLink .list ⟨[1, 1], by decide, by decide⟩,
    .about 1 (.setAttention ⟨100, 0, 0⟩), .about 2 (.setAttention ⟨0x7fffffff, 0, 0⟩)]

def brimming : Space := ((ofSettings {}).run brimmingActions).2

/-- The first spread loses the share of the link, and the second one moves nothing. -/
theorem Reachable.conservative_spreads_brimming :
    brimming.Reachable ∧
      ∃ actions, actions = [.about 1 (.spread .conservative), .about 2 (.spread .conservative)] ∧
        (∀ action ∈ actions, brimming.SpreadsConservatively action) ∧
        brimming.budget.allocatedSti = 2147483747 ∧ brimming.lost actions = 50 ∧
        (brimming.run actions).2.budget.allocatedSti = 2147483697 ∧ ¬ brimming.HaveRoom actions := by
  have hs : brimming.Reachable := ⟨{}, brimmingActions, rfl⟩
  have hactions : ∀ action ∈ [Action.about 1 (.spread .conservative), .about 2 (.spread .conservative)],
      brimming.SpreadsConservatively action := by
    simp [SpreadsConservatively, spreadMode?]
  obtain ⟨hbudget, hroom⟩ := hs.conservative_spreads hactions
  have hbefore : brimming.budget.allocatedSti = 2147483747 := by decide
  have hlost : brimming.lost [.about 1 (.spread .conservative), .about 2 (.spread .conservative)] = 50 := by
    decide
  have hafter := congrArg Budget.allocatedSti hbudget
  simp only [hlost, hbefore] at hafter
  refine ⟨hs, _, rfl, hactions, hbefore, hlost, hafter, ?_⟩
  rw [← (hroom (by decide)).2, hafter, hbefore]
  decide

/-- So the total is not the same after every run of conservative spreads. -/
theorem not_conserved_brimming :
    ¬ ∀ space : Space, space.Reachable → ∀ actions : List Action,
      (∀ action ∈ actions, space.SpreadsConservatively action) →
      (space.run actions).2.budget.allocatedSti = space.budget.allocatedSti := by
  intro h
  have hsame := h brimming ⟨{}, brimmingActions, rfl⟩ [.about 1 (.spread .conservative)]
    (by simp [SpreadsConservatively, spreadMode?])
  revert hsame
  decide

end BeliefGraph.Space
