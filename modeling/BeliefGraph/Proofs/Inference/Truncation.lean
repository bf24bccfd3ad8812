import BeliefGraph.Proofs.Inference.Derivation
import BeliefGraph.Proofs.Inference.Guided

/-!
# Inference in a store that fills up

A limit only matters when an atom is to be made: what a store concludes, which rule it chooses and what
it derives do not depend on it. So a run in a store with a limit and the same run without one go on
alike until the store is full. If all that the free run derives fits in, both runs come to the same;
otherwise the tight one has done exactly the derivations for which there was room, with everything that
belongs to them, and fails (`Space.infer_truncates`).

`GuidedProgress.Truncates` relates the two runs. It is built up from the end of a run: by one
derivation (`Truncates.cons`) and by one round (`Truncates.append`).
-/

namespace BeliefGraph

/-! ## Limits -/

/-- The same store with another limit. -/
def Store.withLimit (s : Store) (limit : Option Nat) : Store := { s with limit }

def Progress.withLimit (p : Progress) (limit : Option Nat) : Progress :=
  { p with store := p.store.withLimit limit }

def GuidedProgress.withLimit (g : GuidedProgress) (limit : Option Nat) : GuidedProgress :=
  { g with progress := g.progress.withLimit limit }

def Space.withLimit (space : Space) (limit : Option Nat) : Space :=
  { space with store := space.store.withLimit limit }

namespace Store

variable {rules : List Rule} {s after : Store} {ds : List Derivation} {made : List Atom}

/-- What a store concludes does not depend on its limit. -/
theorem conclusions_withLimit (s : Store) (limit : Option Nat) (target : Option Id) :
    (s.withLimit limit).conclusions target = s.conclusions target := rfl

/-- Which rule is chosen does not depend on the limit. -/
theorem select_withLimit (s : Store) (limit : Option Nat) (complexity : Float32)
    (rules : List Rule) :
    Choice.select (s.withLimit limit) complexity rules = Choice.select s complexity rules := rfl

/-- What a store supports does not depend on its limit. -/
theorem supported_withLimit {d : Derivation} (h : d.Supported rules s) (limit : Option Nat) :
    d.Supported rules (s.withLimit limit) := by
  cases d with
  | joined first second => exact h
  | applied rule bound => exact h

/-- Derivations lead to the same store under any limit: `Store.Derives` does not ask whether there is
room. -/
theorem Derives.withLimit (h : s.Derives rules ds made after) (limit : Option Nat) :
    (s.withLimit limit).Derives rules ds made (after.withLimit limit) := by
  induction h with
  | refl => exact .refl
  | step supported _ ih => exact .step (supported_withLimit supported limit) ih

/-- A store stays sound under another limit. -/
theorem Sound.withLimit (hs : s.Sound) (limit : Option Nat) : (s.withLimit limit).Sound :=
  ⟨hs.keyed, hs.issued, hs.positive, hs.next_pos⟩

/-- Where there is room, what is derived is the atom and the store of the derivation. -/
theorem derive_of_hasRoom (s : Store) (h : s.hasRoom = true) (d : Derivation) :
    s.derive d.kind d.shape d.truth = .ok (s.derivedAtom d, s.withDerived d) := by
  rw [derive, create_of_hasRoom h]
  rfl

/-- A store without a limit has room. -/
theorem hasRoom_of_unlimited {s : Store} (h : s.limit = none) : s.hasRoom = true := by
  rw [hasRoom, h, Option.all_none]

/-- Without a limit nothing that is derived is refused. -/
theorem derive_unlimited (s : Store) (hs : s.limit = none) (d : Derivation) :
    s.derive d.kind d.shape d.truth = .ok (s.derivedAtom d, s.withDerived d) :=
  s.derive_of_hasRoom (hasRoom_of_unlimited hs) d

/-- With a limit a store refuses what does not fit in. -/
theorem derive_withLimit (s : Store) (limit : Nat) (d : Derivation) :
    (s.withLimit (some limit)).derive d.kind d.shape d.truth
      = if s.size < limit then .ok (s.derivedAtom d, (s.withDerived d).withLimit (some limit))
        else .error (.exhausted limit) := by
  have hsize : (s.withLimit (some limit)).size = s.size := rfl
  have hlimit : (s.withLimit (some limit)).limit = some limit := rfl
  simp only [derive, create, hlimit, hsize]
  split
  · rfl
  · rfl

end Store

/-! ## Two runs -/

namespace GuidedProgress

/-- A run that has come somewhere by some derivations, and has grown more complex with each rule. -/
structure Proceeds (rules : List Rule) (step : Float32) (g : GuidedProgress) (ds : List Derivation)
    (made : List Atom) (after : GuidedProgress) : Prop where
  follows : g.progress.Follows rules ds made after.progress
  complexity : after.complexity = (· + step)^[ds.countP Derivation.byRule] g.complexity

/-- The number of atoms that fit into a store up to a limit. -/
def room (g : GuidedProgress) (limit : Nat) : Nat := limit - g.progress.store.size

/-- Two runs from the same start, the free one without a limit and the tight one with it. -/
structure Truncates (rules : List Rule) (step : Float32) (limit : Nat) (g : GuidedProgress)
    (ds : List Derivation) (made : List Atom) (free tight : GuidedProgress) : Prop where
  follows : g.progress.Follows rules ds made free.progress
  unfailed : free.progress.failure = none
  fits : made.length ≤ g.room limit → tight = free.withLimit (some limit)
  /-- Without room for all, the tight run has done what there was room for. -/
  stops : g.room limit < made.length →
    (g.withLimit (some limit)).Proceeds rules step (ds.take (g.room limit))
        (made.take (g.room limit)) tight ∧
      tight.progress.failure = some (.exhausted limit)

variable {rules : List Rule} {step : Float32} {limit : Nat} {g mid free tight : GuidedProgress}
  {d : Derivation} {ds ds' : List Derivation} {a : Atom} {made more : List Atom}

/-- A run proceeds in the same way under any limit. -/
theorem Proceeds.withLimit (h : g.Proceeds rules step ds made mid) (limit : Option Nat) :
    (g.withLimit limit).Proceeds rules step ds made (mid.withLimit limit) :=
  ⟨⟨h.follows.derives.withLimit limit, h.follows.accounts⟩, h.complexity⟩

/-- Runs that follow each other proceed by their derivations put together. -/
theorem Proceeds.append (h : g.Proceeds rules step ds made mid)
    (h' : mid.Proceeds rules step ds' more free) :
    g.Proceeds rules step (ds ++ ds') (made ++ more) free where
  follows := h.follows.append h'.follows
  complexity := by
    rw [h'.complexity, h.complexity, List.countP_append, Nat.add_comm, Function.iterate_add_apply]

/-- What was made has taken up room. -/
theorem Proceeds.room (h : g.Proceeds rules step ds made mid) (hs : g.progress.store.Sound)
    (limit : Nat) : mid.room limit = g.room limit - made.length := by
  rw [GuidedProgress.room, h.follows.derives.size hs, GuidedProgress.room, Nat.sub_sub]

/-- Nothing is derived. -/
theorem truncates_nil (rules : List Rule) (step : Float32) (limit : Nat)
    (hok : g.progress.failure = none) (h : free.progress = g.progress) :
    g.Truncates rules step limit [] [] free (free.withLimit (some limit)) where
  follows := h ▸ .refl rules _
  unfailed := h ▸ hok
  fits := fun _ => rfl
  stops := fun hnone => absurd hnone (Nat.not_lt_zero _)

/-- The runs go on from where they have come to: both if they have not been stopped yet, otherwise the
free one alone. -/
theorem Truncates.append {stopped rest : GuidedProgress}
    (h : g.Truncates rules step limit ds made mid stopped) (hs : g.progress.store.Sound)
    (hmid : g.Proceeds rules step ds made mid)
    (h' : mid.Truncates rules step limit ds' more free rest)
    (hon : stopped = mid.withLimit (some limit) → tight = rest)
    (hstop : stopped.progress.failure.isSome → tight = stopped) :
    g.Truncates rules step limit (ds ++ ds') (made ++ more) free tight := by
  have hroom := hmid.room hs limit
  have hlen := hmid.follows.derives.length
  have hfollows := h.follows.append h'.follows
  by_cases hfits : made.length ≤ g.room limit
  · -- Both go on, with the room that is left.
    obtain rfl := hon (h.fits hfits)
    refine ⟨hfollows, h'.unfailed, fun hall => h'.fits ?_, fun hshort => ?_⟩
    · rw [List.length_append] at hall
      omega
    · rw [List.length_append] at hshort
      obtain ⟨hproceeds, hfailure⟩ := h'.stops (by omega)
      refine ⟨?_, hfailure⟩
      rw [List.take_append, List.take_append, List.take_of_length_le (hlen ▸ hfits),
        List.take_of_length_le hfits, ← hlen, ← hroom]
      exact (hmid.withLimit _).append hproceeds
  · -- The tight run has been stopped, and the cut is in the first part.
    obtain ⟨hproceeds, hfailure⟩ := h.stops (Nat.lt_of_not_le hfits)
    obtain rfl := hstop (by rw [hfailure]; rfl)
    have hshort := Nat.lt_of_not_le hfits
    refine ⟨hfollows, h'.unfailed, fun hall => ?_, fun _ => ⟨?_, hfailure⟩⟩
    · rw [List.length_append] at hall
      omega
    · rw [List.take_append_of_le_length (hlen ▸ hshort.le),
        List.take_append_of_le_length hshort.le]
      exact hproceeds

/-- The runs begin with one derivation, which the tight one is refused if there is no room. -/
theorem Truncates.cons {rest : GuidedProgress} (h : mid.Truncates rules step limit ds made free rest)
    (hs : g.progress.store.Sound) (hfirst : g.Proceeds rules step [d] [a] mid)
    (hok : mid.progress.failure = none)
    (htight : tight = if g.progress.store.size < limit then rest
      else GuidedRun.refused (g.withLimit (some limit)) limit) :
    g.Truncates rules step limit (d :: ds) (a :: made) free tight := by
  by_cases hroom : g.progress.store.size < limit
  · rw [if_pos hroom] at htight
    have hone : 1 ≤ g.room limit := Nat.sub_pos_of_lt hroom
    -- There is room for the first atom, so the tight run keeps up with the free one that far.
    have hmid : g.Truncates rules step limit [d] [a] mid (mid.withLimit (some limit)) :=
      ⟨hfirst.follows, hok, fun _ => rfl, fun hshort => absurd hone (Nat.not_le.mpr hshort)⟩
    refine Truncates.append hmid hs hfirst h (fun _ => htight) fun hsome => ?_
    have hnone : (mid.withLimit (some limit)).progress.failure = none := hok
    rw [hnone] at hsome
    exact absurd hsome Bool.false_ne_true
  · rw [if_neg hroom] at htight
    -- The store is full, so the tight run makes nothing at all.
    have hzero : g.room limit = 0 := Nat.sub_eq_zero_of_le (Nat.le_of_not_lt hroom)
    refine ⟨hfirst.follows.append h.follows, h.unfailed, fun hall => ?_, fun _ => ?_⟩
    · rw [hzero] at hall
      exact absurd hall (Nat.not_succ_le_zero _)
    · rw [hzero, htight, List.take_zero, List.take_zero]
      exact ⟨⟨⟨.refl, .refl _⟩, rfl⟩, rfl⟩

/-- The same progress with other answers. -/
def mapCreated (f : List Atom → List Atom) (g : GuidedProgress) : GuidedProgress :=
  { g with progress := { g.progress with created := f g.progress.created } }

/-- What the runs answer makes no difference. -/
theorem Truncates.mapCreated {start : List Atom}
    (h : (g.mapCreated fun _ => start).Truncates rules step limit ds made free tight)
    (f : List Atom → List Atom) :
    g.Truncates rules step limit ds made (free.mapCreated f) (tight.mapCreated f) := by
  refine ⟨⟨h.follows.derives, h.follows.accounts⟩, h.unfailed, fun hfits => ?_, fun hshort => ?_⟩
  · rw [h.fits hfits]
    rfl
  · obtain ⟨hproceeds, hfailure⟩ := h.stops hshort
    exact ⟨⟨⟨hproceeds.follows.derives, hproceeds.follows.accounts⟩, hproceeds.complexity⟩, hfailure⟩

end GuidedProgress

/-! ## Forward chaining -/

namespace Progress

variable {rules : List Rule} {p : Progress}

/-- A round without conclusions makes nothing. -/
theorem assert_nil (hok : p.failure = none) : p.assert [] = p := by
  obtain ⟨store, ledger, created, failure⟩ := p
  obtain rfl : failure = none := hok
  simp only [assert, Growth.ofConclusions, Ledger.addDeductions, List.length_nil, Nat.add_zero,
    List.append_nil]

/-- Conclusions are added one by one. -/
theorem assert_cons (p : Progress) (c : Conclusion) (cs : List Conclusion) :
    p.assert (c :: cs)
      = match p.store.derive c.statement.kind (.link [c.statement.source, c.statement.target])
          c.truth with
        | .error e => { p with failure := some e }
        | .ok (a, store) =>
          assert ⟨store, p.ledger.addDeductions 1, p.created ++ [a], none⟩ cs := by
  simp only [assert, Growth.ofConclusions]
  split
  · simp [*, Ledger.addDeductions]
  · simp [*, Ledger.addDeductions, Nat.add_assoc, Nat.add_comm]

/-- The progress after the conclusion of two edges. -/
def withJoined (p : Progress) (first second : Edge) : Progress where
  store := p.store.withDerived (.joined first second)
  ledger := p.ledger.addDeductions 1
  created := p.created ++ [p.store.derivedAtom (.joined first second)]
  failure := none

/-- Without a limit the first conclusion is added, and then the others. -/
theorem assert_joined (hs : p.store.limit = none) (first second : Edge) (cs : List Conclusion) :
    p.assert (Conclusion.ofEdges first second :: cs) = (p.withJoined first second).assert cs := by
  have hderive : p.store.derive first.statement.kind (.link [first.source, second.target])
      (first.truth.deduction second.truth) = _ :=
    p.store.derive_unlimited hs (.joined first second)
  simp only [assert_cons, Conclusion.ofEdges, hderive]
  rfl

/-- With a limit it is refused if there is no room. -/
theorem assert_joined_withLimit (p : Progress) (limit : Nat) (first second : Edge)
    (cs : List Conclusion) :
    (p.withLimit (some limit)).assert (Conclusion.ofEdges first second :: cs)
      = if p.store.size < limit then ((p.withJoined first second).withLimit (some limit)).assert cs
        else { p.withLimit (some limit) with failure := some (.exhausted limit) } := by
  have hderive : (p.withLimit (some limit)).store.derive first.statement.kind
      (.link [first.source, second.target]) (first.truth.deduction second.truth) = _ :=
    p.store.derive_withLimit limit (.joined first second)
  by_cases hroom : p.store.size < limit
  · rw [if_pos hroom] at hderive ⊢
    simp only [assert_cons, Conclusion.ofEdges, hderive]
    rfl
  · rw [if_neg hroom] at hderive ⊢
    simp only [assert_cons, Conclusion.ofEdges, hderive]

/-- A link for two edges follows from their deduction. -/
theorem follows_withJoined {first second : Edge}
    (h : (Derivation.joined first second).Supported rules p.store) :
    p.Follows rules [.joined first second] [p.store.derivedAtom (.joined first second)]
      (p.withJoined first second) :=
  have hrule : ∀ d ∈ [Derivation.joined first second], d.byRule = false :=
    List.forall_mem_singleton.mpr rfl
  have htruth : ∀ d ∈ [Derivation.joined first second], d.computes = true :=
    List.forall_mem_singleton.mpr rfl
  ⟨.single h, p.ledger.accounts_addDeductions hrule htruth⟩

/-- The conclusions of a round, without a limit and with it. -/
theorem truncates_assert (rules : List Rule) (step : Float32) (limit : Nat) (complexity : Float32)
    (hs : p.store.Open) (hok : p.failure = none) {cs : List Conclusion}
    (hcs : ∀ c ∈ cs, ∃ e ∈ p.store.edges, ∃ f ∈ p.store.edges,
      e.target = f.source ∧ c = Conclusion.ofEdges e f) :
    ∃ ds made, (∀ d ∈ ds, d.byRule = false) ∧
      GuidedProgress.Truncates rules step limit ⟨p, complexity⟩ ds made ⟨p.assert cs, complexity⟩
        ⟨(p.withLimit (some limit)).assert cs, complexity⟩ := by
  induction cs generalizing p with
  | nil =>
    have hok' : (p.withLimit (some limit)).failure = none := hok
    rw [assert_nil hok, assert_nil hok']
    exact ⟨[], [], by simp, GuidedProgress.truncates_nil rules step limit hok rfl⟩
  | cons c cs ih =>
    obtain ⟨⟨e, he, f, hf, hmeets, rfl⟩, hmore⟩ := List.forall_mem_cons.mp hcs
    have hsupported : (Derivation.joined e f).Supported rules p.store := ⟨he, hf, hmeets⟩
    have hfollows := follows_withJoined hsupported
    have hopen : (p.withJoined e f).store.Open :=
      ⟨(hfollows.derives.grown hs.sound).sound, hs.unlimited⟩
    obtain ⟨ds, made, hrule, hrest⟩ := ih hopen rfl fun c hc => by
      -- The edges that the other conclusions are drawn from are still there.
      obtain ⟨e', he', f', hf', h⟩ := hmore c hc
      exact ⟨e', Store.mem_edges_withDerived hs.sound he' _, f',
        Store.mem_edges_withDerived hs.sound hf' _, h⟩
    refine ⟨.joined e f :: ds, p.store.derivedAtom (.joined e f) :: made,
      List.forall_mem_cons.mpr ⟨rfl, hrule⟩, ?_⟩
    have hfirst : GuidedProgress.Proceeds rules step ⟨p, complexity⟩ _ _
      ⟨p.withJoined e f, complexity⟩ := ⟨hfollows, rfl⟩
    rw [assert_joined hs.unlimited, assert_joined_withLimit]
    refine hrest.cons hs.sound hfirst rfl ?_
    split
    · rfl
    · rfl

/-- A round that has begun derives as much as one that has not. -/
theorem truncates_of_begun {step : Float32} {limit : Nat} {complexity : Float32}
    {ds : List Derivation} {made : List Atom} {free tight : GuidedProgress}
    (h : GuidedProgress.Truncates rules step limit ⟨p.beginForwardRound, complexity⟩ ds made free tight) :
    GuidedProgress.Truncates rules step limit ⟨p, complexity⟩ ds made free tight := by
  have hbegin : ∀ q : Progress, q.Follows rules [] [] q.beginForwardRound :=
    fun q => ⟨.refl, ⟨rfl, rfl, rfl⟩⟩
  refine ⟨(hbegin p).append h.follows, h.unfailed, h.fits, fun hshort => ?_⟩
  obtain ⟨hproceeds, hfailure⟩ := h.stops hshort
  exact ⟨⟨(hbegin (p.withLimit (some limit))).append hproceeds.follows, hproceeds.complexity⟩,
    hfailure⟩

/-- Rounds of forward chaining, without a limit and with it. -/
theorem truncates_forward (rules : List Rule) (step : Float32) (limit : Nat) (complexity : Float32)
    (hs : p.store.Open) (hok : p.failure = none) (target : Option Id) (rounds : Nat) :
    ∃ ds made, (∀ d ∈ ds, d.byRule = false) ∧
      GuidedProgress.Truncates rules step limit ⟨p, complexity⟩ ds made
        ⟨p.forward target rounds, complexity⟩
        ⟨(p.withLimit (some limit)).forward target rounds, complexity⟩ := by
  induction rounds generalizing p with
  | zero => exact ⟨[], [], by simp, GuidedProgress.truncates_nil rules step limit hok rfl⟩
  | succ rounds ih =>
    have hcs : ∀ c ∈ p.store.conclusions target, ∃ e ∈ p.store.edges, ∃ f ∈ p.store.edges,
        e.target = f.source ∧ c = Conclusion.ofEdges e f :=
      fun _ => Store.exists_edges_of_mem_conclusions
    have hfree : p.beginForwardRound.store.conclusions target = p.store.conclusions target := rfl
    have htight : (p.withLimit (some limit)).beginForwardRound.store.conclusions target
      = p.store.conclusions target := p.store.conclusions_withLimit (some limit) target
    rw [forward, forward, hfree, htight]
    generalize p.store.conclusions target = cs at hcs
    cases cs with
    | nil =>
      refine ⟨[], [], by simp, truncates_of_begun ?_⟩
      exact GuidedProgress.truncates_nil (g := ⟨p.beginForwardRound, complexity⟩) rules step limit
        hok rfl
    | cons c cs =>
      obtain ⟨ds, made, hrule, hround⟩ :=
        truncates_assert (p := p.beginForwardRound) rules step limit complexity hs hok hcs
      -- The two runs go through this round, and the rest of the runs goes on from where it leaves them.
      have hround := truncates_of_begun hround
      have hgrown := hround.follows.derives.grown hs.sound
      have hunfailed : (p.beginForwardRound.assert (c :: cs)).failure = none := hround.unfailed
      obtain ⟨ds', more, hrule', hrest⟩ :=
        ih ⟨hgrown.sound, hgrown.limit.trans hs.unlimited⟩ hunfailed
      have hnone : ds.countP Derivation.byRule = 0 :=
        List.countP_eq_zero.mpr fun d hd => by rw [hrule d hd]; exact Bool.false_ne_true
      have hmid : GuidedProgress.Proceeds rules step ⟨p, complexity⟩ ds made
          ⟨p.beginForwardRound.assert (c :: cs), complexity⟩ :=
        ⟨hround.follows, by rw [hnone]; rfl⟩
      refine ⟨ds ++ ds', made ++ more, List.forall_mem_append.mpr ⟨hrule, hrule'⟩, ?_⟩
      simp only [hunfailed, Option.isSome_none, Bool.false_eq_true, if_false]
      refine hround.append hs.sound hmid hrest (fun hon => ?_) fun hstop => ?_
      · have hon : (p.withLimit (some limit)).beginForwardRound.assert (c :: cs)
            = (p.beginForwardRound.assert (c :: cs)).withLimit (some limit) :=
          congrArg GuidedProgress.progress hon
        have hnone : ((p.beginForwardRound.assert (c :: cs)).withLimit (some limit)).failure = none :=
          hunfailed
        simp only [hon, hnone, Option.isSome_none, Bool.false_eq_true, if_false]
      · have hstop : ((p.withLimit (some limit)).beginForwardRound.assert (c :: cs)).failure.isSome :=
          hstop
        rw [if_pos hstop]
        rfl

end Progress

/-! ## Rule-guided chaining -/

/-- The progress after the application of a rule. -/
def Progress.withApplied (p : Progress) (rule : Rule) (bound : List Atom) : Progress where
  store := p.store.withDerived (.applied rule bound)
  ledger := p.ledger.addRuleMatch (rule.truth? (bound.map Atom.truth)).isSome
  created := p.created ++ [p.store.derivedAtom (.applied rule bound)]
  failure := p.failure

namespace GuidedRun

variable {run : GuidedRun} {g : GuidedProgress} {choice : Choice} {limit : Nat}

/-- How a run goes on after it has applied a rule. -/
def onward (run : GuidedRun) (n : Nat) (g : GuidedProgress) (choice : Choice) : GuidedProgress :=
  let p := g.progress.withApplied choice.rule choice.bound
  if run.goal.any (g.progress.store.derivedAtom (.applied choice.rule choice.bound)).meets then
    { g with progress := p }
  else run.rounds n (run.grow p g.complexity)

/-- With room for it the chosen rule is applied. -/
theorem rounds_of_hasRoom (hroom : g.progress.store.hasRoom = true)
    (h : Choice.select g.progress.store g.complexity run.rules = some choice) (n : Nat) :
    run.rounds (n + 1) g = run.onward n g choice := by
  have hderive : g.progress.store.derive choice.rule.conclusionKind (choice.rule.shape choice.bound)
      ((choice.rule.truth? (choice.bound.map Atom.truth)).getD Truth.unknown) = _ :=
    g.progress.store.derive_of_hasRoom hroom (.applied choice.rule choice.bound)
  simp only [rounds, h, hderive]
  rfl

/-- Without a limit there always is room. -/
theorem rounds_of_select (hs : g.progress.store.limit = none)
    (h : Choice.select g.progress.store g.complexity run.rules = some choice) (n : Nat) :
    run.rounds (n + 1) g = run.onward n g choice :=
  rounds_of_hasRoom (Store.hasRoom_of_unlimited hs) h n

/-- With a limit it is refused if there is no room. -/
theorem rounds_withLimit_of_select
    (h : Choice.select g.progress.store g.complexity run.rules = some choice) (limit n : Nat) :
    run.rounds (n + 1) (g.withLimit (some limit))
      = if g.progress.store.size < limit then run.onward n (g.withLimit (some limit)) choice
        else refused (g.withLimit (some limit)) limit := by
  have hselect : Choice.select (g.withLimit (some limit)).progress.store
      (g.withLimit (some limit)).complexity run.rules = some choice :=
    (Store.select_withLimit _ _ _ _).trans h
  have hderive : (g.withLimit (some limit)).progress.store.derive choice.rule.conclusionKind
      (choice.rule.shape choice.bound)
      ((choice.rule.truth? (choice.bound.map Atom.truth)).getD Truth.unknown) = _ :=
    g.progress.store.derive_withLimit limit (.applied choice.rule choice.bound)
  by_cases hroom : g.progress.store.size < limit
  · rw [if_pos hroom] at hderive ⊢
    simp only [rounds, hselect, hderive]
    rfl
  · rw [if_neg hroom] at hderive ⊢
    simp only [rounds, hselect, hderive]
    rfl

/-- An application proceeds by one derivation, after which the complexity has grown once. -/
theorem proceeds_withApplied
    (h : Choice.select g.progress.store g.complexity run.rules = some choice) :
    g.Proceeds run.rules run.complexityStep [.applied choice.rule choice.bound]
      [g.progress.store.derivedAtom (.applied choice.rule choice.bound)]
      (run.grow (g.progress.withApplied choice.rule choice.bound) g.complexity) :=
  ⟨⟨.single (Choice.select_sound h), g.progress.ledger.accounts_addRuleMatch _ _⟩, rfl⟩

/-- The last round of a run, without a limit and with it. -/
theorem truncates_fallBack (run : GuidedRun) (limit : Nat) (hs : g.progress.store.Open)
    (hok : g.progress.failure = none) :
    ∃ ds made, g.Truncates run.rules run.complexityStep limit ds made (run.fallBack g)
      (run.fallBack (g.withLimit (some limit))) := by
  obtain ⟨ds, made, -, h⟩ := Progress.truncates_forward (p := { g.progress with created := [] })
    run.rules run.complexityStep limit g.complexity hs hok run.target 1
  have h : (g.mapCreated fun _ => []).Truncates run.rules run.complexityStep limit ds made _ _ := h
  have hanswer := h.mapCreated fun more =>
    g.progress.created ++ more.take (run.cap - g.progress.created.length)
  exact ⟨ds, made, hanswer⟩

/-- The rounds of a run, without a limit and with it. -/
theorem truncates_rounds (run : GuidedRun) (limit : Nat) (hs : g.progress.store.Open)
    (hok : g.progress.failure = none) (n : Nat) :
    ∃ ds made, g.Truncates run.rules run.complexityStep limit ds made (run.rounds n g)
      (run.rounds n (g.withLimit (some limit))) := by
  induction n generalizing g with
  | zero => exact ⟨[], [], GuidedProgress.truncates_nil _ _ limit hok rfl⟩
  | succ n ih =>
    cases hchoice : Choice.select g.progress.store g.complexity run.rules with
    | none =>
      have hchoice' : Choice.select (g.withLimit (some limit)).progress.store
        (g.withLimit (some limit)).complexity run.rules = none :=
          (Store.select_withLimit _ _ _ _).trans hchoice
      simp only [rounds, hchoice, hchoice']
      exact truncates_fallBack run limit hs hok
    | some choice =>
      rw [rounds_of_select hs.unlimited hchoice, rounds_withLimit_of_select hchoice]
      have hfirst := proceeds_withApplied hchoice
      have hgrown := hfirst.follows.derives.grown hs.sound
      let next := run.grow (g.progress.withApplied choice.rule choice.bound) g.complexity
      obtain ⟨ds, made, h⟩ : ∃ ds made, next.Truncates run.rules run.complexityStep limit ds made
          (run.onward n g choice) (run.onward n (g.withLimit (some limit)) choice) := by
        have hatom : (g.withLimit (some limit)).progress.store.derivedAtom
          (.applied choice.rule choice.bound)
            = g.progress.store.derivedAtom (.applied choice.rule choice.bound) := rfl
        rw [onward, onward, hatom]
        split
        · -- The goal is reached, and the complexity does not grow any more.
          exact ⟨[], [], GuidedProgress.truncates_nil _ _ limit hok rfl⟩
        · exact ih ⟨hgrown.sound, hgrown.limit.trans hs.unlimited⟩ hok
      exact ⟨_, _, h.cons hs.sound hfirst hok rfl⟩

end GuidedRun

/-! ## Calls -/

/-- A call for inference. -/
inductive Call
  | forward (target : Option Id) (rounds : Nat)
  | chain (target : Option Id)

namespace Space

variable {space : Space} {limit : Nat}

/-- Performs a call. -/
def infer (space : Space) : Call → Except StoreError (List Atom) × Space
  | .forward target rounds => space.forward target rounds
  | .chain target => space.chain target

/-- How far the run of a call comes. -/
def inferred (space : Space) : Call → GuidedProgress
  | .forward target rounds => ⟨space.startRun.forward target rounds, space.chainer.complexity⟩
  | .chain target => space.chainer.run space.reasoner.rules space.startRun target

/-- A call finishes where its run has come to. -/
theorem infer_eq (space : Space) (call : Call) :
    space.infer call = space.finishGuided (space.inferred call) := by
  cases call with
  | forward target rounds => rfl
  | chain target => rfl

/-- A run that has not failed answers what it created. -/
theorem finishGuided_of_unfailed {g : GuidedProgress} (h : g.progress.failure = none) :
    space.finishGuided g = (.ok g.progress.created, (space.finishGuided g).2) := by
  rw [finishGuided, finishRun, Progress.result, h]

/-- A run that has failed answers its failure. -/
theorem finishGuided_of_failed {g : GuidedProgress} {e : StoreError}
    (h : g.progress.failure = some e) :
    space.finishGuided g = (.error e, (space.finishGuided g).2) := by
  rw [finishGuided, finishRun, Progress.result, h]

/-- The run of a call, without a limit and with it. -/
theorem truncates_inferred (hs : space.store.Open) (call : Call) (limit : Nat) :
    ∃ ds made, space.guidedStart.Truncates space.reasoner.rules space.chainer.complexityStep limit ds
      made (space.inferred call) ((space.withLimit (some limit)).inferred call) := by
  have hforward := fun target rounds => Progress.truncates_forward (p := space.startRun)
    space.reasoner.rules space.chainer.complexityStep limit space.chainer.complexity hs rfl target rounds
  cases call with
  | forward target rounds =>
    obtain ⟨ds, made, -, h⟩ := hforward target rounds
    exact ⟨ds, made, h⟩
  | chain target =>
    have hrules : (space.withLimit (some limit)).reasoner.rules = space.reasoner.rules := rfl
    rw [inferred, inferred, hrules, GuidedChainer.run, GuidedChainer.run]
    split
    · obtain ⟨ds, made, -, h⟩ := hforward target space.chainer.maxIterations
      have hanswer := GuidedProgress.Truncates.mapCreated (g := space.guidedStart) h
        (·.take space.chainer.cap)
      exact ⟨ds, made, hanswer⟩
    · exact GuidedRun.truncates_rounds (space.guidedRun target) limit hs rfl space.chainer.maxIterations

/-- Running out of room only truncates inference. Without a limit a call does not fail; let `made` be
the atoms that it makes. If they fit in, the same call with the limit answers the same and leaves the
same space. Otherwise it fails, and has made the first of these atoms, as many as there was room for:
each is there as the whole derivation makes it, the counters account for exactly these derivations, and
the complexity has grown once for each rule among them. -/
theorem infer_truncates (space : Space) (call : Call) (limit : Nat) (hs : space.store.Sound) :
    ∃ ds made results after,
      (space.withLimit none).infer call = (.ok results, after) ∧
      (space.withLimit none).store.Derives space.reasoner.rules ds made after.store ∧
      after.store.atoms = space.store.atoms ++ made ∧
      (made.length ≤ limit - space.store.size →
        (space.withLimit (some limit)).infer call = (.ok results, after.withLimit (some limit))) ∧
      (limit - space.store.size < made.length → ∃ stopped,
        (space.withLimit (some limit)).infer call = (.error (.exhausted limit), stopped) ∧
        (space.withLimit (some limit)).store.Derives space.reasoner.rules
          (ds.take (limit - space.store.size)) (made.take (limit - space.store.size))
          stopped.store ∧
        stopped.store.atoms = space.store.atoms ++ made.take (limit - space.store.size) ∧
        space.reasoner.ledger.Accounts (ds.take (limit - space.store.size))
          stopped.reasoner.ledger ∧
        stopped.chainer.complexity
          = (· + space.chainer.complexityStep)^[(ds.take (limit - space.store.size)).countP
              Derivation.byRule] space.chainer.complexity) := by
  have hs' : (space.withLimit none).store.Sound := hs.withLimit none
  have hopen : (space.withLimit none).store.Open := ⟨hs', rfl⟩
  obtain ⟨ds, made, h⟩ := truncates_inferred hopen call limit
  let after := (space.withLimit none).inferred call
  let stopped := (space.withLimit (some limit)).inferred call
  refine ⟨ds, made, after.progress.created, ((space.withLimit none).finishGuided after).2, ?_,
    h.follows.derives, (h.follows.derives.grown hs').atoms, fun hroom => ?_, fun hshort => ?_⟩
  · rw [infer_eq]
    exact finishGuided_of_unfailed h.unfailed
  · -- All of it fits in, so both runs come to the same.
    have hfits : stopped = after.withLimit (some limit) := h.fits hroom
    rw [infer_eq]
    show (space.withLimit (some limit)).finishGuided stopped = _
    rw [hfits]
    exact finishGuided_of_unfailed h.unfailed
  · -- The tight run stops short, with exactly the derivations for which there was room.
    obtain ⟨⟨⟨hderives, haccounts⟩, hcomplexity⟩, hfailure⟩ := h.stops hshort
    refine ⟨((space.withLimit (some limit)).finishGuided stopped).2, ?_, hderives,
      (hderives.grown (hs.withLimit _)).atoms, haccounts, hcomplexity⟩
    rw [infer_eq]
    exact finishGuided_of_failed hfailure

/-- Two rounds of the rule with room for one: the chainer stops after the first application, which is
counted and has made it more complex. -/
theorem infer_truncates_naming :
    (naming "b").store.Sound ∧ ∃ stopped,
      ((naming "b").withLimit (some 2)).infer (.chain none) = (.error (.exhausted 2), stopped) ∧
        stopped.store.atoms = [named "a" 1, named "b" 2] ∧
        stopped.reasoner.ledger.ruleMatches = (naming "b").reasoner.ledger.ruleMatches + 1 ∧
        stopped.chainer.complexity
          = (naming "b").chainer.complexity + (naming "b").chainer.complexityStep := by
  have hs := sound_naming "b"
  obtain ⟨ds, made, results, after, hfree, -, hatoms, -, hstops⟩ :=
    infer_truncates (naming "b") (.chain none) 2 hs
  obtain rfl : (((naming "b").withLimit none).infer (.chain none)).2 = after :=
    congrArg Prod.snd hfree
  obtain rfl : [named "b" 2, named "b" 3] = made :=
    @List.append_cancel_left _ [named "a" 1] _ _ hatoms
  obtain ⟨stopped, hinfer, -, hstopped, -, -⟩ := hstops (by decide)
  obtain rfl : (((naming "b").withLimit (some 2)).infer (.chain none)).2 = stopped :=
    congrArg Prod.snd hinfer
  exact ⟨hs, _, hinfer, hstopped, rfl, rfl⟩

end Space

end BeliefGraph
