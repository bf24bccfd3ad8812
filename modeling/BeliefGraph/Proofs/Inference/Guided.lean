import BeliefGraph.Proofs.Inference.Rounds
import BeliefGraph.Proofs.Store.History
import BeliefGraph.Space.Basic

/-!
# What a rule-guided chainer answers

A chainer does one of three things. Without rules it chains forward. If there are rules and none of
them fits, it chains forward for one round. Otherwise it applies rules, one a round, until its rounds
are spent or an application reaches the goal (`Space.chain_structure`); two such runs in sequence are
one run with the rounds of both.

`Space.chain_at_application` follows a run to one of its applications and says how it goes on. Only
the kind and shape of the goal decide. The goal is what the target resolved to when the run began: the
id of an atom that is made later never ends a run, and `Space.chain_passes_target` is a run that goes
on past the very atom it was aimed at.
-/

namespace BeliefGraph

open GuidedRun

/-- A rule that concludes a concept with a label from any atom. -/
def Rule.naming (label : String) : Rule where
  name := "name"
  premises := [.any]
  conclusion := .node .concept label
  conclusionKind := .concept
  formula := none
  weight := 1
  premises_ne_nil := List.cons_ne_nil _ _
  weight_finite := by decide

namespace Space

/-- The run of a chainer toward a target. -/
def guidedRun (space : Space) (target : Option Id) : GuidedRun :=
  ⟨space.reasoner.rules, target, target.bind space.store.get?, space.chainer.complexityStep,
    space.chainer.cap⟩

/-- Where it begins. -/
def guidedStart (space : Space) : GuidedProgress := ⟨space.startRun, space.chainer.complexity⟩

/-- Takes over what a rule-guided run has made and counted, and how complex it has become. -/
def finishGuided (space : Space) (g : GuidedProgress) : Except StoreError (List Atom) × Space :=
  let finished := space.finishRun g.progress
  (finished.1, { finished.2 with chainer := { space.chainer with complexity := g.complexity } })

/-- The same space with another number of rounds for its chainer. -/
def withIterations (space : Space) (n : Nat) : Space :=
  { space with chainer := { space.chainer with maxIterations := n } }

/-- A call of the chainer that chains forward for some rounds: it answers the first atoms of those
that the rounds make. -/
structure ChainsForward (space : Space) (target : Option Id) (rounds : Nat) (results : List Atom)
    (after : Space) : Prop where
  forward : ∃ made, space.forward target rounds = (.ok made, after) ∧
    space.store.Grown made after.store ∧ results = made.take space.chainer.cap ∧
    (made.length < UInt64.size → results = made.take (2 * space.chainer.maxIterations))
  chainer : after.chainer = space.chainer
  ruleMatches : after.reasoner.ledger.ruleMatches = space.reasoner.ledger.ruleMatches

/-- A call of the chainer that applies a rule in each of its rounds, and answers all it makes. -/
structure ChainsByRules (space : Space) (target : Option Id) (results : List Atom) (after : Space) :
    Prop where
  /-- Every round is an application, up to the end of the run. -/
  rounds : ∃ last, (space.guidedRun target).Ended space.chainer.maxIterations space.guidedStart results
    last ∧ space.finishGuided last = (.ok results, after)
  grown : space.store.Grown results after.store
  /-- Once some rule can be bound, some rule can be bound whenever the run has advanced. -/
  binds : space.store.Binds space.reasoner.rules → ∀ as mid,
    (space.guidedRun target).Advances space.guidedStart as mid →
      mid.progress.store.Binds space.reasoner.rules
  /-- The answer is never full before a round. -/
  room : space.chainer.maxIterations < UInt64.size → ∀ as mid,
    (space.guidedRun target).Advances space.guidedStart as mid →
      as.length < space.chainer.maxIterations → mid.progress.created.length < space.chainer.cap
  ruleMatches : after.reasoner.ledger.ruleMatches
    = space.reasoner.ledger.ruleMatches + results.length
  forwardRounds : after.reasoner.ledger.forwardRounds = space.reasoner.ledger.forwardRounds
  /-- All rounds are spent, or the last application alone reaches the goal. -/
  ending : (results.length = space.chainer.maxIterations ∧
        (∀ a ∈ results, ¬ (space.guidedRun target).Reaches a) ∧
        after.chainer.complexity
          = (· + space.chainer.complexityStep)^[results.length] space.chainer.complexity) ∨
      ∃ front a, results = front ++ [a] ∧ results.length ≤ space.chainer.maxIterations ∧
        (∀ b ∈ front, ¬ (space.guidedRun target).Reaches b) ∧ (space.guidedRun target).Reaches a ∧
        after.chainer.complexity
          = (· + space.chainer.complexityStep)^[front.length] space.chainer.complexity

/-- The three things that a call of the chainer can do. -/
inductive Chains (space : Space) (target : Option Id) (results : List Atom) (after : Space) : Prop
  | withoutRules (rules : space.reasoner.rules = [])
      (chains : space.ChainsForward target space.chainer.maxIterations results after)
  | unbound (rules : space.reasoner.rules ≠ []) (rounds : 0 < space.chainer.maxIterations)
      (unbound : ¬ space.store.Binds space.reasoner.rules)
      (chains : space.ChainsForward target 1 results after)
  | byRules (rules : space.reasoner.rules ≠ [])
      (bound : space.chainer.maxIterations = 0 ∨ space.store.Binds space.reasoner.rules)
      (chains : space.ChainsByRules target results after)

variable {space after : Space} {target : Option Id} {results : List Atom}

/-- A run of the chainer begins in a state between rounds. -/
theorem ready_guidedStart (hs : space.store.Sound) (target : Option Id) :
    (space.guidedRun target).Ready space.guidedStart where
  sound := hs
  unfailed := rfl
  goal := by
    intro goal hgoal
    obtain ⟨id, -, hget⟩ := Option.bind_eq_some_iff.mp hgoal
    rw [hs.keyed hget]
    exact hs.issued hget

/-- Each application adds one atom to the answer, so it may have more than it has before a round. -/
theorem length_created_lt_cap {as : List Atom} {mid : GuidedProgress} (hs : space.store.Sound)
    (hwords : space.chainer.maxIterations < UInt64.size)
    (hadv : (space.guidedRun target).Advances space.guidedStart as mid)
    (hlt : as.length < space.chainer.maxIterations) :
    mid.progress.created.length < space.chainer.cap := by
  have hcreated : mid.progress.created = as := (hadv.applied hs).created
  rw [hcreated, GuidedChainer.cap]
  omega

/-! ## The three things a chainer does -/

/-- An answer that is cut short. -/
theorem finishRun_take (space : Space) (p : Progress) (n : Nat) :
    space.finishRun { p with created := p.created.take n }
      = ((space.finishRun p).1.map (·.take n), (space.finishRun p).2) := by
  obtain ⟨store, ledger, created, failure⟩ := p
  cases failure <;> rfl

/-- Without rules the chainer chains forward and answers the first atoms that this makes. -/
theorem chain_of_no_rules (h : space.reasoner.rules = []) (target : Option Id) :
    space.chain target
      = ((space.forward target space.chainer.maxIterations).1.map (·.take space.chainer.cap),
          (space.forward target space.chainer.maxIterations).2) := by
  simp only [chain, GuidedChainer.run, h, List.isEmpty_nil, if_true, forward, finishRun_take]
  rfl

/-- With rules the chainer goes through the rounds of a rule-guided run. -/
theorem chain_of_rules (space : Space) (h : space.reasoner.rules ≠ []) (target : Option Id) :
    space.chain target
      = space.finishGuided
          ((space.guidedRun target).rounds space.chainer.maxIterations space.guidedStart) := by
  have hempty : space.reasoner.rules.isEmpty = false := by simpa using h
  simp only [chain, GuidedChainer.run, hempty, Bool.false_eq_true, if_false]
  rfl

/-- When no rule can be bound at the start, the chainer chains forward for one round. -/
theorem chain_of_not_binds (h : space.reasoner.rules ≠ []) (hn : 0 < space.chainer.maxIterations)
    (hbinds : ¬ space.store.Binds space.reasoner.rules) (target : Option Id) :
    space.chain target
      = ((space.forward target 1).1.map (·.take space.chainer.cap), (space.forward target 1).2) := by
  rw [space.chain_of_rules h, rounds_of_not_binds hn hbinds]
  exact space.finishRun_take (space.startRun.forward target 1) space.chainer.cap

/-- Forward chaining alone changes neither the chainer nor the number of rules applied. -/
theorem chainsForward_of_eq (hs : space.store.Sound) {rounds : Nat}
    (heq : space.chain target
      = ((space.forward target rounds).1.map (·.take space.chainer.cap),
          (space.forward target rounds).2))
    (h : space.chain target = (.ok results, after)) :
    space.ChainsForward target rounds results after := by
  obtain ⟨made, hcreated, hgrown, hmatches⟩ :=
    Progress.exists_chained_forward (p := space.startRun) hs target rounds
  rw [heq, forward, finishRun, Progress.result] at h
  cases hfailure : (space.startRun.forward target rounds).failure with
  | some e =>
    rw [hfailure] at h
    cases congrArg Prod.fst h
  | none =>
    rw [hfailure, hcreated] at h
    obtain ⟨hresults, rfl⟩ := Prod.mk.inj h
    have hresults : made.take space.chainer.cap = results := Except.ok.inj hresults
    refine ⟨⟨made, ?_, hgrown, hresults.symm, fun hlen => ?_⟩, rfl, hmatches⟩
    · rw [forward, finishRun, Progress.result, hfailure, hcreated]
      rfl
    · have hall : made.take (UInt64.size - 1) = made :=
        List.take_of_length_le (Nat.le_sub_one_of_lt hlen)
      rw [← hresults, GuidedChainer.cap, ← List.take_take, hall]

/-- A run of rules that does not fail has applied a rule in each of its rounds. -/
theorem exists_ended (hs : space.store.Sound) (hrules : space.reasoner.rules ≠ [])
    (hbinds : space.chainer.maxIterations = 0 ∨ space.store.Binds space.reasoner.rules)
    (h : space.chain target = (.ok results, after)) :
    ∃ last, (space.guidedRun target).Ended space.chainer.maxIterations space.guidedStart results last ∧
      space.finishGuided last = (.ok results, after) := by
  rw [space.chain_of_rules hrules] at h
  rcases rounds_of_binds _ (ready_guidedStart hs target) hbinds with
    ⟨as, hended⟩ | ⟨as, mid, limit, hadv, -, -, hrefused⟩
  · generalize (space.guidedRun target).rounds _ _ = last at h hended
    have happlied := hended.applied hs
    have hfailure : last.progress.failure = none := happlied.failure
    have hcreated : last.progress.created = as := happlied.created
    obtain rfl : as = results := by
      rw [finishGuided, finishRun, Progress.result, hfailure, hcreated] at h
      exact Except.ok.inj (congrArg Prod.fst h)
    exact ⟨last, hended, h⟩
  · rw [hrefused] at h
    cases congrArg Prod.fst h

/-- A call of the chainer that starts with a rule that can be bound applies rules only. -/
theorem chainsByRules_of_eq (hs : space.store.Sound) (hrules : space.reasoner.rules ≠ [])
    (hbinds : space.chainer.maxIterations = 0 ∨ space.store.Binds space.reasoner.rules)
    (h : space.chain target = (.ok results, after)) : space.ChainsByRules target results after := by
  obtain ⟨last, hended, hfinish⟩ := exists_ended hs hrules hbinds h
  have happlied := hended.applied hs
  obtain rfl : (space.finishGuided last).2 = after := congrArg Prod.snd hfinish
  refine ⟨⟨last, hended, hfinish⟩, happlied.grown, fun hbinds as mid hadv => hadv.binds hs hbinds,
    fun hwords as mid hadv hlt => length_created_lt_cap hs hwords hadv hlt, happlied.ruleMatches,
    happlied.forwardRounds, ?_⟩
  cases hended with
  | spent hadv hlen => exact .inl ⟨hlen, hadv.not_reaches, hadv.complexity⟩
  | reached hadv hlen happ hreach =>
    refine .inr ⟨_, _, rfl, ?_, hadv.not_reaches, hreach, hadv.complexity⟩
    rw [List.length_append]
    exact hlen

/-- What forward chaining does to the store is growth. -/
theorem exists_grown_forward (hs : space.store.Sound) (target : Option Id) (rounds : Nat) :
    ∃ made, space.store.Grown made (space.forward target rounds).2.store := by
  obtain ⟨made, hchained⟩ := Progress.exists_chained_forward (p := space.startRun) hs target rounds
  exact ⟨made, hchained.grown⟩

/-- What the chainer does to the store is growth. -/
theorem exists_grown_chain (hs : space.store.Sound) (target : Option Id) :
    ∃ made, space.store.Grown made (space.chain target).2.store := by
  by_cases hrules : space.reasoner.rules = []
  · rw [chain_of_no_rules hrules]
    exact exists_grown_forward hs target _
  · rw [space.chain_of_rules hrules]
    exact exists_grown_rounds _ (ready_guidedStart hs target)

/-! ## Runs in sequence -/

/-- Without a target a run of rules spends all its rounds. -/
theorem ChainsByRules.exists_advances (h : space.ChainsByRules none results after) :
    ∃ last, (space.guidedRun none).Advances space.guidedStart results last ∧
      results.length = space.chainer.maxIterations ∧
        space.finishGuided last = (.ok results, after) := by
  obtain ⟨last, hended, hfinish⟩ := h.rounds
  cases hended with
  | spent hadv hlen => exact ⟨last, hadv, hlen, hfinish⟩
  | reached _ _ _ hreach =>
    obtain ⟨goal, hgoal, -⟩ := hreach
    exact absurd hgoal nofun

/-- The chainer keeps the rules of its reasoner. -/
theorem ChainsByRules.rules (h : space.ChainsByRules target results after) :
    after.reasoner.rules = space.reasoner.rules := by
  obtain ⟨last, -, hfinish⟩ := h.rounds
  obtain rfl : (space.finishGuided last).2 = after := congrArg Prod.snd hfinish
  rfl

/-- Two runs of rules in sequence are one run with the rounds of both. -/
theorem ChainsByRules.consecutive (hs : space.store.Sound) (hrules : space.reasoner.rules ≠ [])
    (h : space.ChainsByRules none results after) {n : Nat} {more : List Atom} {final : Space}
    (h' : (after.withIterations n).ChainsByRules none more final) :
    (space.withIterations (space.chainer.maxIterations + n)).chain none
      = (.ok (results ++ more), final.withIterations (space.chainer.maxIterations + n)) := by
  obtain ⟨last, hadv, hlen, hfinish⟩ := h.exists_advances
  obtain ⟨last', hadv', hlen', hfinish'⟩ := h'.exists_advances
  obtain rfl : (space.finishGuided last).2 = after := congrArg Prod.snd hfinish
  obtain rfl : (((space.finishGuided last).2.withIterations n).finishGuided last').2 = final :=
    congrArg Prod.snd hfinish'
  have hlast := hadv.applied hs
  have hlast' := hadv'.applied hlast.grown.sound
  -- The second run starts where the first one ended, but with nothing made yet.
  have hstart : GuidedRun.behind results ((space.finishGuided last).2.withIterations n).guidedStart
      = last := by
    obtain ⟨⟨store, ledger, created, failure⟩, complexity⟩ := last
    obtain rfl : created = results := hlast.created
    obtain rfl : failure = none := hlast.failure
    rw [GuidedRun.behind]
    simp only [guidedStart, startRun, Progress.start, List.append_nil]
    rfl
  let whole := space.withIterations (space.chainer.maxIterations + n)
  have hfirst : (whole.guidedRun none).Advances whole.guidedStart results last :=
    hadv.behind [] whole.chainer.cap
  have hsecond : (whole.guidedRun none).Advances last more (GuidedRun.behind results last') := by
    have hbehind := hadv'.behind results whole.chainer.cap
    rw [hstart] at hbehind
    exact hbehind
  have hready := whole.ready_guidedStart hs none
  have hwhole : (whole.guidedRun none).rounds (space.chainer.maxIterations + n) whole.guidedStart
      = GuidedRun.behind results last' := by
    rw [← hlen, hfirst.rounds hready, ← show more.length = n from hlen']
    exact hsecond.rounds (hfirst.ready hready) 0
  have hchain : whole.chain none = whole.finishGuided (GuidedRun.behind results last') := by
    rw [← hwhole]
    exact whole.chain_of_rules hrules none
  refine hchain.trans ?_
  obtain ⟨⟨store, ledger, created, failure⟩, complexity⟩ := last'
  obtain rfl : created = more := hlast'.created
  obtain rfl : failure = none := hlast'.failure
  rfl

/-! ## The structure of a call -/

/-- A call of the chainer that does not fail does one of the three things. -/
theorem chains_of_eq (hs : space.store.Sound) (h : space.chain target = (.ok results, after)) :
    space.Chains target results after := by
  by_cases hrules : space.reasoner.rules = []
  · exact .withoutRules hrules (chainsForward_of_eq hs (chain_of_no_rules hrules target) h)
  · by_cases hbinds : space.chainer.maxIterations = 0 ∨ space.store.Binds space.reasoner.rules
    · exact .byRules hrules hbinds (chainsByRules_of_eq hs hrules hbinds h)
    · obtain ⟨hn, hbinds⟩ := not_or.mp hbinds
      have hn := Nat.pos_of_ne_zero hn
      exact .unbound hrules hn hbinds
        (chainsForward_of_eq hs (chain_of_not_binds hrules hn hbinds target) h)

/-- What a call answers are the first of the atoms that it makes. -/
theorem Chains.exists_grown (h : space.Chains target results after) :
    ∃ made n, space.store.Grown made after.store ∧ results = made.take n := by
  cases h with
  | withoutRules _ hchains =>
    obtain ⟨made, -, hgrown, hresults, -⟩ := hchains.forward
    exact ⟨made, _, hgrown, hresults⟩
  | unbound _ _ _ hchains =>
    obtain ⟨made, -, hgrown, hresults, -⟩ := hchains.forward
    exact ⟨made, _, hgrown, hresults⟩
  | byRules _ _ hchains => exact ⟨results, results.length, hchains.grown, List.take_length.symm⟩

/-- A call of the chainer that does not fail does one of three things: without rules it chains forward
for its rounds; with rules of which none can be bound it chains forward for one round; otherwise it
applies a rule in each round. What it answers are live atoms that it made, by id. Two calls in sequence
that apply rules and have no target are one call with the rounds of both. -/
theorem chain_structure (space : Space) (target : Option Id) (hs : space.store.Sound)
    (h : space.chain target = (.ok results, after)) :
    space.Chains target results after ∧
      (∀ a ∈ results, space.store.nextId ≤ a.id ∧ after.store.get? a.id = some a) ∧
      results.Pairwise Store.ById ∧
      (target = none → space.reasoner.rules ≠ [] →
        (space.chainer.maxIterations = 0 ∨ space.store.Binds space.reasoner.rules) →
        ∀ n more final, (n = 0 ∨ after.store.Binds space.reasoner.rules) →
          (after.withIterations n).chain none = (.ok more, final) →
          (space.withIterations (space.chainer.maxIterations + n)).chain none
            = (.ok (results ++ more), final.withIterations (space.chainer.maxIterations + n))) := by
  have hchains := chains_of_eq hs h
  obtain ⟨made, k, hgrown, hresults⟩ := hchains.exists_grown
  have hmade : ∀ a ∈ results, a ∈ made := fun a ha => List.mem_of_mem_take (hresults ▸ ha)
  refine ⟨hchains, fun a ha => ⟨hgrown.le_id (hmade a ha), ?_⟩, ?_, ?_⟩
  · rw [← hgrown.sound.mem_atoms, hgrown.atoms]
    exact List.mem_append_right _ (hmade a ha)
  · rw [hresults]
    exact hgrown.pairwise_made.sublist (List.take_sublist k made)
  · rintro rfl hrules hbinds n more final hbinds' h'
    -- Two calls in sequence are two parts of one run, as the second starts with the rules and the
    -- complexity that the first left.
    have hfirst := chainsByRules_of_eq hs hrules hbinds h
    have hafter : after.reasoner.rules = space.reasoner.rules := hfirst.rules
    refine hfirst.consecutive hs hrules (chainsByRules_of_eq hgrown.sound ?_ ?_ h')
    · exact hafter.symm ▸ hrules
    · exact hafter.symm ▸ hbinds'

/-- A space with the concept `a` and one rule. -/
def naming (label : String) : Space :=
  { ((ofSettings { chainer := { maxIterations := 2 } }).addRule (Rule.naming label)).2 with
    store := ((Store.empty none).run [.createNode .concept (some "a")]).2 }

/-- What the rule makes under an id. -/
def named (label : String) (id : Id) : Atom := Atom.new id .concept (.node (some label))

/-- The space with one node and the naming rule is sound. -/
theorem sound_naming (label : String) : (naming label).store.Sound :=
  Store.Reachable.sound ⟨none, _, rfl⟩

/-- The rule is applied in both rounds, and two more rounds go on from there. -/
theorem chain_structure_naming :
    (naming "b").store.Sound ∧
      (naming "b").chain none = (.ok [named "b" 2, named "b" 3], ((naming "b").chain none).2) ∧
      (naming "b").Chains none [named "b" 2, named "b" 3] ((naming "b").chain none).2 ∧
      (((naming "b").withIterations 4).chain none).1
        = .ok [named "b" 2, named "b" 3, named "b" 4, named "b" 5] := by
  have hs := sound_naming "b"
  have hfirst : (naming "b").chain none
      = (.ok [named "b" 2, named "b" 3], ((naming "b").chain none).2) := rfl
  have hsecond : (((naming "b").chain none).2.withIterations 2).chain none
      = (.ok [named "b" 4, named "b" 5],
          ((((naming "b").chain none).2.withIterations 2).chain none).2) := rfl
  have hbinds : (naming "b").store.Binds (naming "b").reasoner.rules :=
    ⟨Rule.naming "b", List.mem_cons_self, [named "a" 1], rfl⟩
  have hbinds' : ((naming "b").chain none).2.store.Binds (naming "b").reasoner.rules :=
    ⟨Rule.naming "b", List.mem_cons_self, [named "a" 1], rfl⟩
  obtain ⟨hchains, -, -, hboth⟩ := chain_structure (naming "b") none hs hfirst
  have hwhole := hboth rfl (List.cons_ne_nil _ _) (.inr hbinds) 2 _ _ (.inr hbinds') hsecond
  exact ⟨hs, hfirst, hchains, congrArg Prod.fst hwhole⟩

/-! ## The goal of a run -/

/-- A run whose target does not resolve when it begins goes on as if it had none. -/
theorem chain_eq_chain_none (hs : space.store.Sound) (hrules : space.reasoner.rules ≠ [])
    (hbinds : space.store.Binds space.reasoner.rules) (htarget : target.bind space.store.get? = none) :
    space.chain target = space.chain none := by
  have hready := space.ready_guidedStart hs none
  have hrun : space.guidedRun target = { space.guidedRun none with target } := by
    rw [guidedRun, htarget]
    rfl
  rw [space.chain_of_rules hrules, space.chain_of_rules hrules, hrun,
    rounds_withTarget _ hready (.inr hbinds)]

/-- A call of the chainer at one of its applications. If what it makes has the kind and shape of the
atom that the target resolved to when the call began, then the call ends with it and the complexity does
not grow. Otherwise the complexity grows and the call goes on, whatever the id: a target that did not
resolve when the call began might as well not be there. -/
theorem chain_at_application (space : Space) (target : Option Id) (hs : space.store.Sound)
    (hrules : space.reasoner.rules ≠ []) {front : List Atom} {mid : GuidedProgress} {a : Atom}
    {p : Progress} (hadv : (space.guidedRun target).Advances space.guidedStart front mid)
    (hlen : front.length < space.chainer.maxIterations)
    (happ : (space.guidedRun target).Applies mid a p) :
    ((space.guidedRun target).Reaches a → ∃ after, space.chain target = (.ok (front ++ [a]), after) ∧
        after.store = p.store ∧ after.chainer.complexity = mid.complexity) ∧
      (¬ (space.guidedRun target).Reaches a →
        space.chain target = space.finishGuided
          ((space.guidedRun target).rounds (space.chainer.maxIterations - (front.length + 1))
            ⟨p, mid.complexity + space.chainer.complexityStep⟩)) ∧
      (target.bind space.store.get? = none → space.chain target = space.chain none) := by
  have hready := space.ready_guidedStart hs target
  obtain ⟨n, hn⟩ := Nat.exists_eq_add_of_lt hlen
  have hrounds : (space.guidedRun target).rounds space.chainer.maxIterations space.guidedStart
      = (space.guidedRun target).rounds (n + 1) mid := by
    rw [hn, Nat.add_assoc]
    exact hadv.rounds hready (n + 1)
  refine ⟨fun hreach => ?_, fun hon => ?_, fun htarget => ?_⟩
  · have hmid := hadv.applied hs
    have hlast := hmid.trans (happ.applied hmid.grown.sound)
    have hcreated : p.created = front ++ [a] := hlast.created
    have hfailure : p.failure = none := hlast.failure
    -- The run ends here, and its complexity is that of the rounds before.
    refine ⟨(space.finishGuided ⟨p, mid.complexity⟩).2, ?_, rfl, rfl⟩
    rw [space.chain_of_rules hrules, hrounds, rounds_of_reaches (hadv.ready hready) happ hreach,
      finishGuided, finishRun, Progress.result, hfailure, hcreated]
  · rw [space.chain_of_rules hrules, hrounds, rounds_of_not_reaches (hadv.ready hready) happ hon, hn,
      Nat.add_assoc, Nat.add_sub_add_left, Nat.add_sub_cancel]
    rfl
  · exact chain_eq_chain_none hs hrules (hadv.binds_start happ) htarget

/-- A goal with the label that the rule concludes is reached at once. -/
theorem chain_at_application_naming :
    ∃ p, ((naming "a").guidedRun (some 1)).Applies (naming "a").guidedStart (named "a" 2) p ∧
      ((naming "a").guidedRun (some 1)).Reaches (named "a" 2) ∧
      ∃ after, (naming "a").chain (some 1) = (.ok [named "a" 2], after) ∧
        after.store = p.store ∧ after.chainer.complexity = 1 := by
  have happ : ((naming "a").guidedRun (some 1)).Applies (naming "a").guidedStart (named "a" 2) _ :=
    .intro rfl rfl rfl
  have hreach : ((naming "a").guidedRun (some 1)).Reaches (named "a" 2) := ⟨named "a" 1, rfl, rfl, rfl⟩
  exact ⟨_, happ, hreach, (chain_at_application _ _ (sound_naming "a") (List.cons_ne_nil _ _) .refl
    Nat.two_pos happ).1 hreach⟩

/-- A run that makes the very atom it was aimed at, grows more complex and goes on past it. -/
theorem chain_passes_target :
    ∃ p, ((naming "b").guidedRun (some 2)).Applies (naming "b").guidedStart (named "b" 2) p ∧
      ((naming "b").chain (some 2)).1 = .ok [named "b" 2, named "b" 3] ∧
      ((naming "b").chain (some 2)).2.chainer.complexity ≠ (naming "b").chainer.complexity :=
  ⟨_, .intro rfl rfl rfl, rfl, by decide⟩

end Space

end BeliefGraph
