import BeliefGraph.Proofs.Inference.Choice

/-!
# Rounds of a rule-guided run

A round is one of three: it applies a rule, the store refuses what the rule concludes, or no rule can be
bound (`GuidedRun.rounds_succ`). As a rule that can be bound once can be bound from then on, the last is
only met by the first round of a run (`GuidedRun.rounds_of_not_binds`). Any other run advances by
applications that do not reach its goal (`GuidedRun.Advances`), until its rounds are spent, one more
application reaches the goal (`GuidedRun.Ended`), or the store is full (`GuidedRun.rounds_of_binds`).

The goal is resolved before the run. An atom made in the run has a new id, so it can only meet the goal
by its kind and shape.
-/

namespace BeliefGraph

namespace GuidedRun

/-! ## One round -/

/-- A round that applies a rule: the chosen rule makes an atom over what its premises are bound to. -/
inductive Applies (run : GuidedRun) (g : GuidedProgress) : Atom → Progress → Prop
  | intro {choice : Choice} {truth : Option Truth} {a : Atom} {store : Store}
      (select : Choice.select g.progress.store g.complexity run.rules = some choice)
      (computed : choice.rule.truth? (choice.bound.map Atom.truth) = truth)
      (derive : g.progress.store.derive choice.rule.conclusionKind (choice.rule.shape choice.bound)
        (truth.getD Truth.unknown) = .ok (a, store)) :
      Applies run g a
        { g.progress with
          store
          ledger := g.progress.ledger.addRuleMatch truth.isSome
          created := g.progress.created ++ [a] }

/-- An atom has the kind and shape of the goal. -/
def Reaches (run : GuidedRun) (a : Atom) : Prop :=
  ∃ goal, run.goal = some goal ∧ goal.kind = a.kind ∧ goal.shape = a.shape

/-- The run goes on from an application. -/
def grow (run : GuidedRun) (p : Progress) (complexity : Float32) : GuidedProgress :=
  ⟨p, complexity + run.complexityStep⟩

/-- A run that the store refuses to go on. -/
def refused (g : GuidedProgress) (limit : Nat) : GuidedProgress :=
  { g with progress := { g.progress with failure := some (.exhausted limit) } }

/-- What holds between the rounds of a run. -/
structure Ready (run : GuidedRun) (g : GuidedProgress) : Prop where
  sound : g.progress.store.Sound
  unfailed : g.progress.failure = none
  /-- The goal has had its id since before the run. -/
  goal : ∀ goal, run.goal = some goal → goal.id < g.progress.store.nextId

variable {run : GuidedRun} {g mid last : GuidedProgress} {a : Atom} {as : List Atom} {p : Progress}

/-- What a rule makes references what its premises are bound to. -/
theorem knows_shape {s : Store} {rule : Rule} {bound : List Atom} (hs : s.Sound)
    (hbound : ∀ a ∈ bound, a ∈ s.atoms) {id : Id} (hid : id ∈ (rule.shape bound).outgoing) :
    s.Knows id := by
  rw [Rule.shape] at hid
  split at hid
  · obtain ⟨a, ha, rfl⟩ := List.mem_map.mp hid
    exact .inl (hs.id_lt (hbound a ha))
  · exact absurd hid List.not_mem_nil

/-- The rule that is applied can be bound. -/
theorem Applies.binds (h : run.Applies g a p) : g.progress.store.Binds run.rules := by
  obtain ⟨select, -, -⟩ := h
  obtain ⟨hmem, hbind⟩ := Choice.select_sound select
  exact ⟨_, hmem, _, hbind⟩

/-- An application makes one atom. -/
theorem Applies.grown (h : run.Applies g a p) (hs : g.progress.store.Sound) :
    g.progress.store.Grown [a] p.store := by
  obtain @⟨choice, truth, _, _, select, -, derive⟩ := h
  rcases g.progress.store.derive_cases choice.rule.conclusionKind (choice.rule.shape choice.bound)
    (truth.getD Truth.unknown) with ⟨limit, -, hderive⟩ | ⟨-, hderive⟩
  · rw [hderive] at derive
    exact absurd derive nofun
  · rw [hderive] at derive
    cases derive
    refine hs.grown_withNext _ _ _ fun id hid => knows_shape hs (fun b hb => ?_) hid
    exact Choice.mem_of_bind? (Choice.select_sound select).2 hb

/-- After an application that does not end the run its state is one between rounds again. -/
theorem Applies.ready (h : run.Applies g a p) (hg : run.Ready g) :
    run.Ready (run.grow p g.complexity) where
  sound := (h.grown hg.sound).sound
  unfailed := by
    obtain ⟨-, -, -⟩ := h
    exact hg.unfailed
  goal := fun goal hgoal => (hg.goal goal hgoal).trans_le (h.grown hg.sound).nextId_le

/-- An atom of the run equals the goal exactly when it reaches it: their ids differ. -/
theorem Applies.any_meets (h : run.Applies g a p) (hg : run.Ready g) :
    run.goal.any a.meets = true ↔ run.Reaches a := by
  have hnew := (h.grown hg.sound).le_id List.mem_cons_self
  simp only [Option.any_eq_true, Atom.meets, Bool.or_eq_true, Bool.and_eq_true, beq_iff_eq]
  refine exists_congr fun goal => and_congr_right fun hgoal => or_iff_right ?_
  exact ((hg.goal goal hgoal).trans_le hnew).ne

/-- An application that reaches the goal ends the run, and the complexity does not grow. -/
theorem rounds_of_reaches (hg : run.Ready g) (h : run.Applies g a p) (hreach : run.Reaches a)
    (n : Nat) : run.rounds (n + 1) g = ⟨p, g.complexity⟩ := by
  have hmeets := (h.any_meets hg).mpr hreach
  obtain ⟨select, rfl, derive⟩ := h
  simp only [rounds, select, derive, if_pos hmeets]

/-- After an application that does not reach the goal the run goes on, at a greater complexity. -/
theorem rounds_of_not_reaches (hg : run.Ready g) (h : run.Applies g a p) (hon : ¬ run.Reaches a)
    (n : Nat) : run.rounds (n + 1) g = run.rounds n (run.grow p g.complexity) := by
  have hmeets := (h.any_meets hg).not.mpr hon
  obtain ⟨select, rfl, derive⟩ := h
  simp only [rounds, select, derive, if_neg hmeets, grow]

/-- A round applies a rule, is refused, or finds no rule that fits. -/
theorem rounds_succ (run : GuidedRun) (g : GuidedProgress) :
    (∃ a p, run.Applies g a p) ∨
      (∃ limit, g.progress.store.IsFull limit ∧ g.progress.store.Binds run.rules ∧
        ∀ n, run.rounds (n + 1) g = refused g limit) ∨
      (¬ g.progress.store.Binds run.rules ∧ ∀ n, run.rounds (n + 1) g = run.fallBack g) := by
  cases hselect : Choice.select g.progress.store g.complexity run.rules with
  | none =>
    refine .inr (.inr ⟨fun hbinds => ?_, fun n => by simp only [rounds, hselect]⟩)
    rw [← Choice.exists_select_iff _ g.complexity, hselect] at hbinds
    simp at hbinds
  | some choice =>
    rcases g.progress.store.derive_cases choice.rule.conclusionKind (choice.rule.shape choice.bound)
      ((choice.rule.truth? (choice.bound.map Atom.truth)).getD Truth.unknown)
      with ⟨limit, hfull, hderive⟩ | ⟨-, hderive⟩
    · have hsound := Choice.select_sound hselect
      exact .inr (.inl ⟨limit, hfull, ⟨_, hsound.1, _, hsound.2⟩,
        fun n => by simp only [rounds, hselect, hderive, refused]⟩)
    · exact .inl ⟨_, _, ⟨hselect, rfl, hderive⟩⟩

/-! ## Rounds that apply rules -/

/-- Rounds that apply rules and do not reach the goal, with the atoms they make. -/
inductive Advances (run : GuidedRun) : GuidedProgress → List Atom → GuidedProgress → Prop
  | refl {g : GuidedProgress} : Advances run g [] g
  | step {g last : GuidedProgress} {a : Atom} {as : List Atom} {p : Progress}
      (applies : run.Applies g a p) (on : ¬ run.Reaches a)
      (rest : Advances run (run.grow p g.complexity) as last) : Advances run g (a :: as) last

/-- What some rounds that apply rules come to. -/
structure Applied (g : GuidedProgress) (as : List Atom) (p : Progress) : Prop where
  grown : g.progress.store.Grown as p.store
  created : p.created = g.progress.created ++ as
  ruleMatches : p.ledger.ruleMatches = g.progress.ledger.ruleMatches + as.length
  forwardRounds : p.ledger.forwardRounds = g.progress.ledger.forwardRounds
  failure : p.failure = g.progress.failure

/-- An application adds its atom to the answer and counts as one. -/
theorem Applies.applied (h : run.Applies g a p) (hs : g.progress.store.Sound) : Applied g [a] p := by
  refine ⟨h.grown hs, ?_, ?_, ?_, ?_⟩ <;> obtain ⟨-, -, -⟩ := h <;> rfl

theorem Applied.trans {q : Progress} {more : List Atom} {c : Float32} (h : Applied g as p)
    (h' : Applied ⟨p, c⟩ more q) : Applied g (as ++ more) q where
  grown := h.grown.trans h'.grown
  created := by rw [h'.created, h.created, List.append_assoc]
  ruleMatches := by rw [h'.ruleMatches, h.ruleMatches, List.length_append, Nat.add_assoc]
  forwardRounds := h'.forwardRounds.trans h.forwardRounds
  failure := h'.failure.trans h.failure

/-- Rounds that go on have applied a rule for each atom that they made. -/
theorem Advances.applied (h : run.Advances g as last) (hs : g.progress.store.Sound) :
    Applied g as last.progress := by
  induction h with
  | refl => exact ⟨.refl hs, (List.append_nil _).symm, rfl, rfl, rfl⟩
  | step applies _ _ ih =>
    have hfirst := applies.applied hs
    exact hfirst.trans (ih hfirst.grown.sound)

/-- Rounds that go on leave a state between rounds. -/
theorem Advances.ready (h : run.Advances g as last) (hg : run.Ready g) : run.Ready last := by
  induction h with
  | refl => exact hg
  | step applies _ _ ih => exact ih (applies.ready hg)

/-- None of the atoms is the goal. -/
theorem Advances.not_reaches (h : run.Advances g as last) : ∀ a ∈ as, ¬ run.Reaches a := by
  induction h with
  | refl => exact fun a ha => absurd ha List.not_mem_nil
  | step _ on _ ih => exact List.forall_mem_cons.mpr ⟨on, ih⟩

/-- The complexity grows once for each rule. -/
theorem Advances.complexity (h : run.Advances g as last) :
    last.complexity = (· + run.complexityStep)^[as.length] g.complexity := by
  induction h with
  | refl => rfl
  | step _ _ _ ih => exact ih

/-- Rules that can be bound at first can be bound from then on. -/
theorem Advances.binds (h : run.Advances g as last) (hs : g.progress.store.Sound)
    (hbinds : g.progress.store.Binds run.rules) : last.progress.store.Binds run.rules :=
  (h.applied hs).grown.binds hs hbinds

/-- Where a run comes to an application, a rule could be bound at its start. -/
theorem Advances.binds_start (h : run.Advances g as last) (happ : run.Applies last a p) :
    g.progress.store.Binds run.rules := by
  cases h with
  | refl => exact happ.binds
  | step applies _ _ => exact applies.binds

/-- Rounds that have advanced are rounds less. -/
theorem Advances.rounds (h : run.Advances g as mid) (hg : run.Ready g) (n : Nat) :
    run.rounds (as.length + n) g = run.rounds n mid := by
  induction h with
  | refl => rw [List.length_nil, Nat.zero_add]
  | step applies on _ ih =>
    rw [List.length_cons, Nat.add_right_comm, rounds_of_not_reaches hg applies on]
    exact ih (applies.ready hg)

/-- The same progress behind atoms that were made before. -/
def behind (front : List Atom) (g : GuidedProgress) : GuidedProgress :=
  { g with progress := { g.progress with created := front ++ g.progress.created } }

/-- Applications depend neither on what was made before nor on how much a run may answer. -/
theorem Applies.behind (h : run.Applies g a p) (front : List Atom) (cap : Nat) :
    ({ run with cap } : GuidedRun).Applies (GuidedRun.behind front g) a
      { p with created := front ++ p.created } := by
  obtain ⟨select, computed, derive⟩ := h
  simp only [← List.append_assoc]
  exact .intro (g := GuidedRun.behind front g) select computed derive

/-- Rounds that go on depend neither on what was made before nor on how much a run may answer. -/
theorem Advances.behind (h : run.Advances g as last) (front : List Atom) (cap : Nat) :
    ({ run with cap } : GuidedRun).Advances (GuidedRun.behind front g) as
      (GuidedRun.behind front last) := by
  induction h with
  | refl => exact .refl
  | step applies on _ ih => exact .step (applies.behind front cap) on ih

/-! ## Whole runs -/

/-- A run of applications comes to its end: its rounds are spent, or one more reaches the goal. -/
inductive Ended (run : GuidedRun) (n : Nat) (g : GuidedProgress) : List Atom → GuidedProgress → Prop
  | spent {as : List Atom} {last : GuidedProgress} (advances : run.Advances g as last)
      (length : as.length = n) : Ended run n g as last
  | reached {as : List Atom} {mid : GuidedProgress} {a : Atom} {p : Progress}
      (advances : run.Advances g as mid) (length : as.length < n) (applies : run.Applies mid a p)
      (reaches : run.Reaches a) : Ended run n g (as ++ [a]) ⟨p, mid.complexity⟩

/-- A run that goes on after an application ends where the rest of it does. -/
theorem Ended.cons {n : Nat} (applies : run.Applies g a p) (on : ¬ run.Reaches a)
    (h : run.Ended n (run.grow p g.complexity) as last) : run.Ended (n + 1) g (a :: as) last := by
  cases h with
  | spent hadv hlen => exact .spent (.step applies on hadv) (congrArg Nat.succ hlen)
  | @reached front mid b q hadv hlen happ hreach =>
    have hmid : run.Advances g (a :: front) mid := .step applies on hadv
    exact .reached hmid (Nat.succ_lt_succ hlen) happ hreach

/-- A run in which a rule can be bound is applications to its end, unless the store is full. -/
theorem rounds_of_binds (n : Nat) (hg : run.Ready g)
    (hbinds : n = 0 ∨ g.progress.store.Binds run.rules) :
    (∃ as, run.Ended n g as (run.rounds n g)) ∨
      ∃ as mid limit, run.Advances g as mid ∧ as.length < n ∧ mid.progress.store.IsFull limit ∧
        run.rounds n g = refused mid limit := by
  induction n generalizing g with
  | zero => exact .inl ⟨[], .spent .refl rfl⟩
  | succ n ih =>
    have hbinds := hbinds.resolve_left (Nat.succ_ne_zero n)
    rcases run.rounds_succ g with ⟨a, p, happlies⟩ | ⟨limit, hfull, -, hround⟩ | ⟨hnone, -⟩
    · by_cases hreach : run.Reaches a
      · rw [rounds_of_reaches hg happlies hreach]
        exact .inl ⟨_, Ended.reached .refl (Nat.succ_pos n) happlies hreach⟩
      · rw [rounds_of_not_reaches hg happlies hreach]
        -- What could be bound can be bound still, so the next round does not fall back.
        have hone : run.Advances g [a] (run.grow p g.complexity) := .step happlies hreach .refl
        rcases ih (happlies.ready hg) (.inr (hone.binds hg.sound hbinds)) with
          ⟨as, hended⟩ | ⟨as, mid, limit, hadv, hlt, hfull, heq⟩
        · exact .inl ⟨a :: as, hended.cons happlies hreach⟩
        · exact .inr ⟨a :: as, mid, limit, .step happlies hreach hadv, Nat.succ_lt_succ hlt, hfull, heq⟩
    · exact .inr ⟨[], g, limit, .refl, Nat.succ_pos n, hfull, hround n⟩
    · exact absurd hbinds hnone

/-- A run that begins without such a rule falls back at once. -/
theorem rounds_of_not_binds {n : Nat} (hn : 0 < n) (hbinds : ¬ g.progress.store.Binds run.rules) :
    run.rounds n g = run.fallBack g := by
  obtain ⟨n, rfl⟩ := Nat.exists_eq_add_of_lt hn
  rcases run.rounds_succ g with ⟨a, p, happlies⟩ | ⟨-, -, hsome, -⟩ | ⟨-, hround⟩
  · exact absurd happlies.binds hbinds
  · exact absurd hsome hbinds
  · rw [Nat.zero_add]
    exact hround n

/-- The target itself only matters to a run in which no rule can be bound. -/
theorem rounds_withTarget (target : Option Id) {n : Nat} (hg : run.Ready g)
    (hbinds : n = 0 ∨ g.progress.store.Binds run.rules) :
    ({ run with target } : GuidedRun).rounds n g = run.rounds n g := by
  induction n generalizing g with
  | zero => rfl
  | succ n ih =>
    have hbinds := hbinds.resolve_left (Nat.succ_ne_zero n)
    obtain ⟨choice, hselect⟩ := (Choice.exists_select_iff _ g.complexity _).mpr hbinds
    simp only [rounds, hselect]
    split
    · rfl
    · next a store hderive =>
      have happ : run.Applies g a _ := .intro hselect rfl hderive
      have hnext := (happ.grown hg.sound).binds hg.sound hbinds
      split
      · rfl
      · exact ih (happ.ready hg) (.inr hnext)

/-- A run that has ended has applied a rule for each atom that it made. -/
theorem Ended.applied {n : Nat} (h : run.Ended n g as last) (hs : g.progress.store.Sound) :
    Applied g as last.progress := by
  cases h with
  | spent hadv _ => exact hadv.applied hs
  | reached hadv _ happ _ =>
    have hfront := hadv.applied hs
    exact hfront.trans (happ.applied hfront.grown.sound)

/-- What a run does to the store is growth. -/
theorem exists_grown_rounds (n : Nat) (hg : run.Ready g) :
    ∃ made, g.progress.store.Grown made (run.rounds n g).progress.store := by
  by_cases hbinds : n = 0 ∨ g.progress.store.Binds run.rules
  · rcases rounds_of_binds n hg hbinds with ⟨as, hended⟩ | ⟨as, mid, limit, hadv, -, -, heq⟩
    · exact ⟨as, (hended.applied hg.sound).grown⟩
    · rw [heq]
      exact ⟨as, (hadv.applied hg.sound).grown⟩
  · rw [not_or] at hbinds
    rw [rounds_of_not_binds (Nat.pos_of_ne_zero hbinds.1) hbinds.2]
    obtain ⟨made, hchained⟩ := Progress.exists_chained_forward (p := { g.progress with created := [] })
      hg.sound run.target 1
    exact ⟨made, hchained.grown⟩

/-- What derivations of certain truths keep is kept by a run, if two edges have such a truth for their
deduction and each choice computes one. -/
theorem rounds_induction {P : Store → Prop} {Q : Truth → Prop}
    (hnext : ∀ s kind shape truth, Q truth → P s → P (s.withNext kind shape truth))
    (hjoined : ∀ s, P s → ∀ e ∈ s.edges, ∀ f ∈ s.edges, Q (e.truth.deduction f.truth))
    (hchosen : ∀ s complexity choice, P s → Choice.select s complexity run.rules = some choice →
      Q ((choice.rule.truth? (choice.bound.map Atom.truth)).getD Truth.unknown))
    (h : P g.progress.store) (n : Nat) : P (run.rounds n g).progress.store := by
  induction n generalizing g with
  | zero => exact h
  | succ n ih =>
    rw [rounds]
    simp only
    split
    · -- No rule is chosen, and the run ends with a round of forward chaining.
      exact Progress.forward_induction hnext hjoined (p := { g.progress with created := [] }) h
        run.target 1
    · next choice hchoice =>
      have htruth := hchosen _ _ _ h hchoice
      have hgrown := hnext _ choice.rule.conclusionKind (choice.rule.shape choice.bound) _ htruth h
      rcases g.progress.store.derive_cases choice.rule.conclusionKind (choice.rule.shape choice.bound)
        ((choice.rule.truth? (choice.bound.map Atom.truth)).getD Truth.unknown)
        with ⟨limit, -, hderive⟩ | ⟨-, hderive⟩
      · -- The store is full, and the run stops.
        rw [hderive]
        exact h
      · rw [hderive]
        simp only
        split
        · exact hgrown
        · exact ih hgrown

end GuidedRun

end BeliefGraph
