import BeliefGraph.Proofs.Inference.Log
import BeliefGraph.Proofs.Space.Evolution

/-!
# The counters of a space

The counters are a ledger of what inference has done. Each action has a log, which is read off the store
and the rules alone (`Space.log`), and advances the counters by the tally of that log; only a reset sets
them to zero. So after any sequence of actions the counters are the tally of the log since the last reset
(`Space.ledger_exact`), however the calls ended and whatever they answered.
-/

namespace BeliefGraph

/-- A call of the reasoner or the chainer that may change the counters. -/
def Action.IsInference : Action → Prop
  | .forward .. | .chain _ | .resetLedger | .about _ (.backward _) | .about _ (.revise _) => True
  | _ => False

/-- A call for inference, as an action. -/
def Call.action : Call → Action
  | forward target rounds => .forward target rounds
  | chain target => .chain target

namespace Space

variable {space : Space} {action : Action} {actions : List Action} {id : Id}

/-- The work that an action does. -/
def log (space : Space) : Action → List Entry
  | .forward target rounds => space.store.forwardLog target rounds
  | .chain target =>
    if space.reasoner.rules.isEmpty then space.store.forwardLog target space.chainer.maxIterations
    else (space.guidedRun target).log space.chainer.maxIterations space.store space.chainer.complexity
  | .about id (.backward rounds) =>
    if space.store.contains id then space.store.searchLog id rounds 0 else []
  | .about id (.revise _) => if space.store.contains id then [.revised] else []
  | _ => []

/-- The work that actions do one after the other. -/
def runLog : Space → List Action → List Entry
  | _, [] => []
  | space, action :: actions => space.log action ++ runLog (space.act action).2 actions

/-- A space after it has done what a log says: the new atoms follow those that were there, and the counters
have advanced by the tally. -/
structure Logged (space : Space) (log : List Entry) (after : Space) : Prop where
  ids : after.store.atoms.map Atom.id
    = space.store.atoms.map Atom.id ++ (log.flatMap Entry.made).map Atom.id
  ledger : after.reasoner.ledger = space.reasoner.ledger + Ledger.tally log

/-! ## One action -/

/-- Nothing is counted, and there are the same atoms. -/
theorem logged_nil {after : Space} (hids : after.store.atoms.map Atom.id = space.store.atoms.map Atom.id)
    (hledger : after.reasoner.ledger = space.reasoner.ledger) : space.Logged [] after :=
  ⟨by rw [hids, List.flatMap_nil, List.map_nil, List.append_nil], hledger⟩

/-- A call ends with a run that has done what the log of the call says, and takes over what the run has made
and counted. -/
theorem exists_logged_run (hs : space.store.Sound) (call : Call) :
    ∃ p, space.startRun.Logged space.reasoner.rules (space.log call.action) p ∧
      (space.act call.action).2.store = p.store ∧ (space.act call.action).2.reasoner.ledger = p.ledger := by
  have hforward : ∀ target rounds, space.startRun.Logged space.reasoner.rules
      (space.store.forwardLog target rounds) (space.startRun.forward target rounds) :=
    Progress.logged_forward (p := space.startRun) space.reasoner.rules hs
  cases call with
  | forward target rounds => exact ⟨_, hforward target rounds, rfl, rfl⟩
  | chain target =>
    -- without rules the chainer is forward chaining; with them it is the guided run
    by_cases hrules : space.reasoner.rules = []
    · rw [Call.action, log, if_pos (List.isEmpty_iff.mpr hrules), act, answering, chain_of_no_rules hrules]
      exact ⟨_, hforward target space.chainer.maxIterations, rfl, rfl⟩
    · have hguided : space.startRun.Logged (space.guidedRun target).rules _
          ((space.guidedRun target).rounds space.chainer.maxIterations space.guidedStart).progress :=
        GuidedRun.logged_rounds (g := space.guidedStart) hs space.chainer.maxIterations
      rw [Call.action, log, if_neg (mt List.isEmpty_iff.mp hrules), act, answering,
        space.chain_of_rules hrules]
      exact ⟨_, hguided, rfl, rfl⟩

/-- The atoms in the log of a call are derived as it says. -/
theorem derives_call (hs : space.store.Sound) (call : Call) :
    space.store.DerivesLog space.reasoner.rules (space.log call.action)
      (space.act call.action).2.store := by
  obtain ⟨p, hlogged, hstore, -⟩ := exists_logged_run hs call
  rw [hstore]
  exact hlogged.derives

/-- A call for inference makes what its log says and advances the counters by its tally. -/
theorem logged_call (hs : space.store.Sound) (call : Call) :
    space.Logged (space.log call.action) (space.act call.action).2 where
  ids := by
    rw [((derives_call hs call).grown hs).atoms, List.map_append]
  ledger := by
    obtain ⟨p, hlogged, -, hledger⟩ := exists_logged_run hs call
    rw [hledger, hlogged.ledger]
    rfl

/-- A backward search makes no atoms and counts its rounds; one for a dead atom counts nothing. -/
theorem logged_backward (hs : space.store.Sound) (id : Id) (rounds : ℕ) :
    space.Logged (space.log (.about id (.backward rounds)))
      (space.act (.about id (.backward rounds))).2 := by
  rw [log, act, ask, answering, backward]
  split
  · next hlive =>
    have htally := hs.tally_backward hlive rounds
    -- the tally counts no inferences, and these are the atoms that were made
    have hmade : (space.store.searchLog id rounds 0).flatMap Entry.made = [] :=
      List.length_eq_zero_iff.mp (congrArg Ledger.inferences htally)
    refine ⟨by rw [hmade, List.map_nil, List.append_nil]; rfl, ?_⟩
    show space.reasoner.ledger.addBackwardRounds _ = _
    rw [htally]
    simp only [Ledger.addBackwardRounds, Ledger.add_def, Ledger.zero, Nat.add_zero, Nat.zero_add]
  · exact logged_nil rfl rfl

/-- A revision counts as one if the atom is live. -/
theorem logged_revise (hs : space.store.Sound) (id : Id) (evidence : Truth) :
    space.Logged (space.log (.about id (.revise evidence)))
      (space.act (.about id (.revise evidence))).2 := by
  rw [log, act]
  cases hget : space.store.get? id with
  | none =>
    rw [ask_missing hget, Store.contains, hget, Option.isSome_none, if_neg Bool.false_ne_true]
    exact logged_nil rfl rfl
  | some a =>
    rw [Store.contains, hget, Option.isSome_some, if_pos rfl]
    simp only [ask, answering, revise, Store.reviseTruth, Store.updateTruth, hget]
    have hrevalued := hs.revalued_modify id (·.revision evidence) fun x => x
    exact ⟨(hrevalued.ids_eq hs).trans (List.append_nil _).symm, rfl⟩

/-- An action that is no inference is not counted. -/
theorem ledger_act_of_not_isInference (h : ¬ action.IsInference) :
    (space.act action).2.reasoner.ledger = space.reasoner.ledger ∧ space.log action = [] := by
  cases action with
  | about id request =>
    cases request with
    | backward rounds => exact absurd trivial h
    | revise evidence => exact absurd trivial h
    | allocate delta =>
      refine ⟨?_, rfl⟩
      simp only [act, ask, answering, allocate]
      split <;> rfl
    | evaluate => exact ⟨rfl, rfl⟩
    | attention => exact ⟨rfl, rfl⟩
    | _ => exact ⟨congrArg Reasoner.ledger (space.reasoner_onStore _), rfl⟩
  | createNode kind label => exact ⟨congrArg Reasoner.ledger (space.reasoner_onStore _), rfl⟩
  | createLink kind outgoing => exact ⟨congrArg Reasoner.ledger (space.reasoner_onStore _), rfl⟩
  | forward target rounds => exact absurd trivial h
  | chain target => exact absurd trivial h
  | resetLedger => exact absurd trivial h
  | _ => exact ⟨rfl, rfl⟩

/-- Inference makes the atoms of its log and counts it. -/
theorem logged_act (hs : space.store.Sound) (h : action.IsInference) (hreset : action ≠ .resetLedger) :
    space.Logged (space.log action) (space.act action).2 := by
  cases action with
  | about id request =>
    cases request with
    | backward rounds => exact logged_backward hs id rounds
    | revise evidence => exact logged_revise hs id evidence
    | _ => exact h.elim
  | forward target rounds => exact logged_call hs (.forward target rounds)
  | chain target => exact logged_call hs (.chain target)
  | resetLedger => exact absurd rfl hreset
  | _ => exact h.elim

/-- The counters advance by what the action has done. -/
theorem ledger_act (hs : space.store.Sound) (hreset : action ≠ .resetLedger) :
    (space.act action).2.reasoner.ledger = space.reasoner.ledger + Ledger.tally (space.log action) := by
  by_cases h : action.IsInference
  · exact (logged_act hs h hreset).ledger
  · obtain ⟨hledger, hlog⟩ := space.ledger_act_of_not_isInference h
    rw [hledger, hlog]
    rfl

/-! ## Runs -/

/-- Unless they are reset the counters advance by the tally of all that the actions did. -/
theorem ledger_run (hs : space.store.Sound) (hreset : .resetLedger ∉ actions) :
    (space.run actions).2.reasoner.ledger
      = space.reasoner.ledger + Ledger.tally (space.runLog actions) := by
  induction actions generalizing space with
  | nil => rfl
  | cons action actions ih =>
    obtain ⟨hfirst, hrest⟩ := not_or.mp (mt List.mem_cons.mpr hreset)
    rw [runLog, Ledger.tally_append, ← Ledger.add_assoc, ← ledger_act hs (Ne.symm hfirst)]
    exact ih ((evolves_act hs action).sound hs) hrest

/-- What was counted before a reset is forgotten. -/
theorem ledger_run_of_reset (hs : space.store.Sound) (front : List Action) {recent : List Action}
    (hrecent : .resetLedger ∉ recent) :
    (space.run (front ++ .resetLedger :: recent)).2.reasoner.ledger
      = Ledger.tally ((space.run (front ++ [.resetLedger])).2.runLog recent) := by
  let reset := (space.run (front ++ [.resetLedger])).2
  have hreset : reset.store.Sound := (evolves_run hs _).sound hs
  have hzero : reset.reasoner.ledger = Ledger.zero := by
    show (space.run (front ++ [.resetLedger])).2.reasoner.ledger = _
    rw [run_append]
    rfl
  have hrun : (space.run (front ++ .resetLedger :: recent)).2 = (reset.run recent).2 := by
    rw [List.append_cons, run_append]
  rw [hrun, ledger_run hreset hrecent, hzero, Ledger.zero_add]

/-- The atoms that inference makes are all that is made, and they stay. -/
theorem ids_run (hs : space.store.Sound) (hactions : ∀ action ∈ actions, action.IsInference) :
    (space.run actions).2.store.atoms.map Atom.id
      = space.store.atoms.map Atom.id ++ ((space.runLog actions).flatMap Entry.made).map Atom.id := by
  induction actions generalizing space with
  | nil => exact (List.append_nil _).symm
  | cons action actions ih =>
    obtain ⟨hfirst, hrest⟩ := List.forall_mem_cons.mp hactions
    have hids : (space.act action).2.store.atoms.map Atom.id
        = space.store.atoms.map Atom.id ++ ((space.log action).flatMap Entry.made).map Atom.id := by
      by_cases hreset : action = .resetLedger
      · rw [hreset]
        exact (List.append_nil _).symm
      · exact (logged_act hs hfirst hreset).ids
    rw [runLog, List.flatMap_append, List.map_append, ← List.append_assoc, ← hids]
    exact ih ((evolves_act hs action).sound hs) hrest

/-- After any sequence of actions the counters are what has been counted since the last reset, and if there
was none, since the beginning. In a sequence of inference calls the atoms that were counted are exactly
those that have been made. Each call of the sequence has derived the atoms of its log one after the other,
each by the rule that the log names, or from two edges if it names none. -/
theorem ledger_exact (space : Space) (hs : space.store.Sound) (actions : List Action) :
    (.resetLedger ∉ actions →
      (space.run actions).2.reasoner.ledger
        = space.reasoner.ledger + Ledger.tally (space.runLog actions)) ∧
    (∀ front recent, actions = front ++ .resetLedger :: recent → .resetLedger ∉ recent →
      (space.run actions).2.reasoner.ledger
        = Ledger.tally ((space.run (front ++ [.resetLedger])).2.runLog recent)) ∧
    ((∀ action ∈ actions, action.IsInference) →
      (space.run actions).2.store.atoms.map Atom.id
        = space.store.atoms.map Atom.id
          ++ ((space.runLog actions).flatMap Entry.made).map Atom.id) ∧
    (∀ front call rest, actions = front ++ Call.action call :: rest →
      (space.run front).2.store.DerivesLog (space.run front).2.reasoner.rules
        ((space.run front).2.log call.action) ((space.run front).2.act call.action).2.store) := by
  refine ⟨ledger_run hs, ?_, ids_run hs, ?_⟩
  · rintro front recent rfl hrecent
    exact ledger_run_of_reset hs front hrecent
  · rintro front call rest -
    exact derives_call ((evolves_run hs front).sound hs) call

/-- A circle with room for seven more atoms, and one round for the chainer. -/
def circleWithRoom : Space := (threeInACircle.withLimit (some 13)).withIterations 1

/-- Calls of the chainer whose answer is cut off, that applies a rule, and that a full store refuses, a
search that ends with a round that finds nothing, and two revisions, one of them of a missing atom. -/
def mixedCalls : List Action :=
  [.chain none, .addRule (.naming "b"), .chain none, .chain none, .about 3 (.backward 9),
    .about 99 (.revise Truth.unknown), .about 1 (.revise Truth.unknown)]

/-- Three links are made before the rule is added, of which the chainer answers two, and the rule makes one
more atom, without a truth. -/
theorem ledger_exact_circleWithRoom :
    ∃ actions, actions = .forward none 1 :: .resetLedger :: mixedCalls ∧ circleWithRoom.store.Sound ∧
      (circleWithRoom.run actions).1.map Except.isOk
        = [true, true, true, true, true, false, true, false, true] ∧
      (circleWithRoom.run actions).2.reasoner.ledger = ⟨4, 1, 2, 1, 4⟩ := by
  have hcircle : threeInACircle.store.Sound := Store.Reachable.sound ⟨none, _, rfl⟩
  have hs : circleWithRoom.store.Sound := hcircle.withLimit (some 13)
  have hmixed : Action.resetLedger ∉ mixedCalls := by simp [mixedCalls]
  refine ⟨_, rfl, hs, rfl, ?_⟩
  obtain ⟨-, hreset, -⟩ :=
    ledger_exact circleWithRoom hs (.forward none 1 :: .resetLedger :: mixedCalls)
  rw [hreset [.forward none 1] mixedCalls rfl hmixed]
  rfl

end Space

end BeliefGraph
