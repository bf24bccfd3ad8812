import Mathlib.Algebra.BigOperators.Group.List.Basic
import BeliefGraph.Proofs.Inference.BreadthFirst
import BeliefGraph.Proofs.Inference.Truncation

/-!
# The log of inference

What chaining does to a store can be written down without any counter: its rounds with the atoms that they
make, and the rules that are applied. `Store.forwardLog`, `GuidedRun.log` and `Store.searchLog` do that,
and `Ledger.tally` is what the counters ought to be after such work. A run follows its log
(`Progress.Logged`) if the atoms of the log are those that have been derived, from two edges in a round and
by a rule where one was applied, and if the counters have advanced by the tally of the log. This holds of a
single round, and logs of rounds are put together.
-/

namespace BeliefGraph

/-- The rule that derives an atom, unless two edges do. -/
def Derivation.rule? : Derivation → Option Rule
  | joined .. => none
  | applied rule _ => some rule

/-- A piece of work that inference has done. -/
inductive Entry
  /-- A round of forward chaining was begun, and made some links. -/
  | round (made : List Atom)
  /-- A rule made an atom. -/
  | applied (rule : Rule) (made : Atom)
  /-- A round of backward chaining was begun, and found some premises. -/
  | searched (found : List Atom)
  /-- Evidence was merged into the truth of an atom. -/
  | revised

namespace Entry

/-- The atoms that chaining has made. -/
def made : Entry → List Atom
  | round made => made
  | applied _ a => [a]
  | _ => []

/-- For each of these atoms the rule that made it, if a rule did. -/
def makers : Entry → List (Option Rule)
  | round made => made.map fun _ => none
  | applied rule _ => [some rule]
  | _ => []

def isRound : Entry → Bool
  | round _ => true
  | _ => false

def isApplied : Entry → Bool
  | applied .. => true
  | _ => false

def isSearched : Entry → Bool
  | searched _ => true
  | _ => false

/-- How many truths are computed. A rule computes one for what it makes if it has a formula or at least two
premises. -/
def truths : Entry → ℕ
  | round made => made.length
  | applied rule _ => if rule.formula.isSome ∨ 2 ≤ rule.premises.length then 1 else 0
  | searched _ => 0
  | revised => 1

end Entry

namespace Ledger

/-- The counters for some work that is begun with all of them at zero. -/
def tally (log : List Entry) : Ledger where
  inferences := (log.flatMap Entry.made).length
  forwardRounds := log.countP Entry.isRound
  backwardRounds := log.countP Entry.isSearched
  ruleMatches := log.countP Entry.isApplied
  truthComputations := (log.map Entry.truths).sum

instance : Add Ledger where
  add l l' :=
    ⟨l.inferences + l'.inferences, l.forwardRounds + l'.forwardRounds,
      l.backwardRounds + l'.backwardRounds, l.ruleMatches + l'.ruleMatches,
      l.truthComputations + l'.truthComputations⟩

/-- Counters are added one by one. -/
theorem add_def (l l' : Ledger) : l + l' =
    ⟨l.inferences + l'.inferences, l.forwardRounds + l'.forwardRounds,
      l.backwardRounds + l'.backwardRounds, l.ruleMatches + l'.ruleMatches,
      l.truthComputations + l'.truthComputations⟩ := rfl

/-- Counters that are all zero add nothing in front. -/
theorem zero_add (l : Ledger) : zero + l = l := by
  simp only [add_def, zero, Nat.zero_add]

/-- Counters that are all zero add nothing behind. -/
theorem add_zero (l : Ledger) : l + zero = l := rfl

/-- Counters may be added up in any grouping. -/
theorem add_assoc (l l' l'' : Ledger) : l + l' + l'' = l + (l' + l'') := by
  simp only [add_def, Nat.add_assoc]

/-- The counters of two logs are those of the one followed by the other. -/
theorem tally_append (log log' : List Entry) : tally (log ++ log') = tally log + tally log' := by
  simp only [add_def, tally, List.flatMap_append, List.length_append, List.countP_append,
    List.map_append, List.sum_append]

end Ledger

/-! ## Runs that follow a log -/

/-- The atoms of a log have been derived, each by the rule that is said to have made it. -/
def Store.DerivesLog (rules : List Rule) (s : Store) (log : List Entry) (after : Store) : Prop :=
  ∃ ds, s.Derives rules ds (log.flatMap Entry.made) after ∧
    ds.map Derivation.rule? = log.flatMap Entry.makers

/-- A run that has done what a log says. -/
structure Progress.Logged (rules : List Rule) (p : Progress) (log : List Entry) (after : Progress) :
    Prop where
  derives : p.store.DerivesLog rules log after.store
  ledger : after.ledger = p.ledger + Ledger.tally log

section Logged

variable {rules : List Rule} {log log' : List Entry}

/-- The derivations of two logs follow each other. -/
theorem Store.DerivesLog.append {s mid after : Store} (h : s.DerivesLog rules log mid)
    (h' : mid.DerivesLog rules log' after) : s.DerivesLog rules (log ++ log') after := by
  obtain ⟨ds, hderives, hrules⟩ := h
  obtain ⟨ds', hderives', hrules'⟩ := h'
  refine ⟨ds ++ ds', ?_, ?_⟩
  · rw [List.flatMap_append]
    exact hderives.append hderives'
  · rw [List.map_append, List.flatMap_append, hrules, hrules']

/-- A store grows by the atoms of a log. -/
theorem Store.DerivesLog.grown {s after : Store} (h : s.DerivesLog rules log after) (hs : s.Sound) :
    s.Grown (log.flatMap Entry.made) after := by
  obtain ⟨ds, hderives, -⟩ := h
  exact hderives.grown hs

namespace Progress

variable {p mid after : Progress}

theorem Logged.refl (rules : List Rule) (p : Progress) : p.Logged rules [] p := ⟨⟨[], .refl, rfl⟩, rfl⟩

/-- The logs of two runs of which one goes on from the other follow each other. -/
theorem Logged.append (h : p.Logged rules log mid) (h' : mid.Logged rules log' after) :
    p.Logged rules (log ++ log') after where
  derives := h.derives.append h'.derives
  ledger := by rw [h'.ledger, h.ledger, Ledger.tally_append, Ledger.add_assoc]

/-- A store stays sound over what a log says. -/
theorem Logged.sound (h : p.Logged rules log after) (hs : p.store.Sound) : after.store.Sound :=
  (h.derives.grown hs).sound

end Progress

end Logged

/-! ## Forward chaining -/

/-- The rounds of forward chaining: they end with one that makes nothing, or that a full store stops. -/
def Store.forwardLog (target : Option Id) : ℕ → Store → List Entry
  | 0, _ => []
  | n + 1, s =>
    let growth := Growth.ofConclusions s (s.conclusions target)
    .round growth.atoms ::
      if growth.atoms.isEmpty || growth.failure.isSome then [] else forwardLog target n growth.store

/-- Conclusions that are not refused make a link each. -/
theorem Growth.length_ofConclusions {s : Store} {cs : List Conclusion}
    (h : (ofConclusions s cs).failure = none) : (ofConclusions s cs).atoms.length = cs.length := by
  induction cs generalizing s with
  | nil => rfl
  | cons c cs ih =>
    rw [ofConclusions] at h ⊢
    rcases s.derive_cases c.statement.kind (.link [c.statement.source, c.statement.target]) c.truth
      with ⟨limit, -, hderive⟩ | ⟨-, hderive⟩
    · rw [hderive] at h
      simp at h
    · rw [hderive] at h ⊢
      exact congrArg Nat.succ (ih h)

/-- A full store refuses a derivation for its limit. -/
theorem Store.derive_of_not_hasRoom (s : Store) (h : s.hasRoom = false) (d : Derivation) :
    ∃ limit, s.derive d.kind d.shape d.truth = .error (.exhausted limit) := by
  obtain ⟨limit, hcreate⟩ := create_of_not_hasRoom h d.kind d.shape
  exact ⟨limit, by rw [derive, hcreate]; rfl⟩

/-- Conclusions from the edges of a store are derived, up to the first that is refused. -/
theorem Growth.derives_ofConclusions (rules : List Rule) {s : Store} (hs : s.Sound) {cs : List Conclusion}
    (hcs : ∀ c ∈ cs, ∃ e ∈ s.edges, ∃ f ∈ s.edges,
      e.target = f.source ∧ c = Conclusion.ofEdges e f) :
    s.DerivesLog rules [.round (ofConclusions s cs).atoms] (ofConclusions s cs).store := by
  induction cs generalizing s with
  | nil => exact ⟨[], .refl, rfl⟩
  | cons c cs ih =>
    obtain ⟨⟨e, he, f, hf, hmeets, rfl⟩, hmore⟩ := List.forall_mem_cons.mp hcs
    have hsupported : (Derivation.joined e f).Supported rules s := ⟨he, hf, hmeets⟩
    have hsound := ((Store.Derives.single hsupported).grown hs).sound
    cases hroom : s.hasRoom with
    | false =>
      obtain ⟨limit, hderive⟩ := s.derive_of_not_hasRoom hroom (.joined e f)
      have hderive : s.derive e.statement.kind (.link [e.source, f.target])
          (e.truth.deduction f.truth) = _ := hderive
      simp only [ofConclusions, Conclusion.ofEdges, hderive]
      exact ⟨[], .refl, rfl⟩
    | true =>
      have hderive : s.derive e.statement.kind (.link [e.source, f.target])
          (e.truth.deduction f.truth) = _ := s.derive_of_hasRoom hroom (.joined e f)
      -- The conclusions that are left were drawn from edges that are edges still.
      obtain ⟨ds, hrest, hrules⟩ := ih hsound fun c hc => by
        obtain ⟨e', he', f', hf', h⟩ := hmore c hc
        exact ⟨e', Store.mem_edges_withDerived hs he' _, f', Store.mem_edges_withDerived hs hf' _, h⟩
      simp only [ofConclusions, Conclusion.ofEdges, hderive]
      exact ⟨.joined e f :: ds, .step hsupported hrest, congrArg (List.cons none) hrules⟩

namespace Progress

variable {p : Progress}

/-- A round that is begun, with its conclusions added. -/
theorem logged_afterRound (rules : List Rule) (hs : p.store.Sound) (target : Option Id) :
    p.Logged rules [.round (Growth.ofConclusions p.store (p.store.conclusions target)).atoms]
      (p.afterRound target) where
  derives := Growth.derives_ofConclusions rules hs fun _ => Store.exists_edges_of_mem_conclusions
  ledger := by
    simp [afterRound, assert, beginForwardRound, Ledger.beginForwardRound, Ledger.addDeductions,
      Ledger.add_def, Ledger.tally, Entry.made, Entry.isRound, Entry.isApplied, Entry.isSearched,
      Entry.truths]

/-- Forward chaining does what its log says: a round makes its links and counts once. -/
theorem logged_forward (rules : List Rule) (hs : p.store.Sound) (target : Option Id) (n : ℕ) :
    p.Logged rules (p.store.forwardLog target n) (p.forward target n) := by
  induction n generalizing p with
  | zero => exact .refl rules p
  | succ n ih =>
    have hround := logged_afterRound rules hs target
    rw [Store.forwardLog]
    rcases p.forward_succ_cases target with ⟨hnone, hstop⟩ | ⟨hfailure, hstop⟩ | ⟨hsome, hfailure, hon⟩
    · -- The final round makes nothing.
      rw [hstop]
      rw [afterRound] at hround
      rw [hnone] at hround ⊢
      exact ⟨hround.derives, hround.ledger⟩
    · have hfailure : (Growth.ofConclusions p.store (p.store.conclusions target)).failure.isSome = true :=
        hfailure
      rw [hstop, hfailure, Bool.or_true, if_pos rfl]
      exact hround
    · have hfailure : (Growth.ofConclusions p.store (p.store.conclusions target)).failure = none :=
        hfailure
      have hatoms : (Growth.ofConclusions p.store (p.store.conclusions target)).atoms ≠ [] := by
        rw [← List.length_pos_iff, Growth.length_ofConclusions hfailure, List.length_pos_iff]
        exact hsome
      have hempty := List.isEmpty_eq_false_iff.mpr hatoms
      rw [hon, hfailure, hempty, Option.isSome_none, Bool.or_false, if_neg Bool.false_ne_true]
      exact hround.append (ih (hround.sound hs))

end Progress

/-! ## Rule-guided chaining -/

/-- A rule has a truth for what it makes if it has a formula or at least two premises. -/
theorem Rule.isSome_truth? {s : Store} {rule : Rule} {bound : List Atom}
    (h : Choice.bind? s rule.premises = some bound) :
    (rule.truth? (bound.map Atom.truth)).isSome = true ↔
      rule.formula.isSome = true ∨ 2 ≤ rule.premises.length := by
  rw [(Choice.bind?_eq_some.mp h).length_eq]
  cases hformula : rule.formula with
  | some formula => simp [truth?, hformula]
  | none =>
    rcases bound with _ | ⟨a, _ | ⟨b, bound⟩⟩ <;> simp [truth?, hformula]

/-- The rounds of a rule-guided run: each applies a rule if there is room. They end with the goal, or with
a round of forward chaining when no rule can be bound. -/
def GuidedRun.log (run : GuidedRun) : ℕ → Store → Float32 → List Entry
  | 0, _, _ => []
  | n + 1, s, complexity =>
    match Choice.select s complexity run.rules with
    | none => s.forwardLog run.target 1
    | some choice =>
      let d := Derivation.applied choice.rule choice.bound
      if s.hasRoom then
        .applied choice.rule (s.derivedAtom d) ::
          if run.goal.any (s.derivedAtom d).meets then []
          else run.log n (s.withDerived d) (complexity + run.complexityStep)
      else []

namespace GuidedRun

variable {run : GuidedRun} {g : GuidedProgress}

/-- Without room the run stops as it is. -/
theorem rounds_of_not_hasRoom {choice : Choice} (hroom : g.progress.store.hasRoom = false)
    (h : Choice.select g.progress.store g.complexity run.rules = some choice) (n : ℕ) :
    ∃ limit, run.rounds (n + 1) g = refused g limit := by
  obtain ⟨limit, hderive⟩ :=
    g.progress.store.derive_of_not_hasRoom hroom (.applied choice.rule choice.bound)
  have hderive : g.progress.store.derive choice.rule.conclusionKind (choice.rule.shape choice.bound)
      ((choice.rule.truth? (choice.bound.map Atom.truth)).getD Truth.unknown) = _ := hderive
  exact ⟨limit, by simp only [rounds, h, hderive, refused]⟩

/-- The application of a rule. -/
theorem logged_withApplied {choice : Choice}
    (h : Choice.select g.progress.store g.complexity run.rules = some choice) :
    g.progress.Logged run.rules
      [.applied choice.rule (g.progress.store.derivedAtom (.applied choice.rule choice.bound))]
      (g.progress.withApplied choice.rule choice.bound) where
  derives := ⟨_, (proceeds_withApplied h).follows.derives, rfl⟩
  ledger := by
    have hbind := (Choice.select_sound h).2
    have htruth : (choice.rule.truth? (choice.bound.map Atom.truth)).isSome.toNat
        = if choice.rule.formula.isSome ∨ 2 ≤ choice.rule.premises.length then 1 else 0 := by
      simp only [← Rule.isSome_truth? hbind]
      cases (choice.rule.truth? (choice.bound.map Atom.truth)).isSome <;> rfl
    rw [Progress.withApplied, Ledger.addRuleMatch, htruth]
    rfl

/-- A rule-guided run does what its log says, also if the store refuses to let it finish. -/
theorem logged_rounds (hs : g.progress.store.Sound) (n : ℕ) :
    g.progress.Logged run.rules (run.log n g.progress.store g.complexity) (run.rounds n g).progress := by
  induction n generalizing g with
  | zero => exact .refl run.rules g.progress
  | succ n ih =>
    rw [log]
    cases hselect : Choice.select g.progress.store g.complexity run.rules with
    | none =>
      simp only [rounds, hselect]
      -- No rule applies, so what is logged is one round of forward chaining.
      have hforward := Progress.logged_forward (p := { g.progress with created := [] }) run.rules hs
        run.target 1
      exact ⟨hforward.derives, hforward.ledger⟩
    | some choice =>
      cases hroom : g.progress.store.hasRoom with
      | false =>
        obtain ⟨limit, hround⟩ := rounds_of_not_hasRoom hroom hselect n
        rw [hround]
        simp only [Bool.false_eq_true, if_false]
        exact ⟨⟨[], .refl, rfl⟩, rfl⟩
      | true =>
        have hfirst := logged_withApplied hselect
        rw [rounds_of_hasRoom hroom hselect, onward]
        simp only [if_true]
        split
        · exact hfirst
        · exact hfirst.append (ih (g := run.grow _ g.complexity) (hfirst.sound hs))

end GuidedRun

/-! ## Backward chaining -/

namespace Store

/-- The rounds of a search that has come to a layer: they end with one that finds nothing. -/
def searchLog (s : Store) (goal : Id) : ℕ → ℕ → List Entry
  | 0, _ => []
  | n + 1, k =>
    let found := (s.layer goal (k + 1)).found
    .searched found :: if found.isEmpty then [] else s.searchLog goal n (k + 1)

/-- A search from a layer goes through the rounds of its log. -/
theorem tally_searchLog (s : Store) (goal : Id) (n k : ℕ) :
    Ledger.tally (s.searchLog goal n k) = Ledger.zero.addBackwardRounds
      (Search.run s n (s.layer goal k).seen ((s.layer goal k).found.map Atom.id)).rounds := by
  induction n generalizing k with
  | zero => rfl
  | succ n ih =>
    have hnext : Layer.explore s (s.layer goal k).seen
        (((s.layer goal k).found.map Atom.id).flatMap s.premises) = s.layer goal (k + 1) := rfl
    rw [Search.run, searchLog]
    simp only [hnext]
    split
    · rfl
    · rw [← List.singleton_append, Ledger.tally_append, ih, Ledger.add_def]
      simp [Ledger.tally, Ledger.addBackwardRounds, Ledger.zero, Entry.made, Entry.isRound,
        Entry.isApplied, Entry.isSearched, Entry.truths, Nat.add_comm]

/-- A search from a live goal starts with the layer of the goal alone. -/
theorem Sound.tally_backward {s : Store} (hs : s.Sound) {goal : Id} (hgoal : s.contains goal = true)
    (n : ℕ) :
    Ledger.tally (s.searchLog goal n 0) = Ledger.zero.addBackwardRounds (s.backward goal n).rounds := by
  obtain ⟨a, ha⟩ := Option.isSome_iff_exists.mp hgoal
  have htally := s.tally_searchLog goal n 0
  simp only [Store.layer, ha, Option.toList_some, List.map_singleton, hs.keyed ha] at htally
  rw [htally, backward]

end Store

end BeliefGraph
