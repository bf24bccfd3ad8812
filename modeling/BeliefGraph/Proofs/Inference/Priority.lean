import BeliefGraph.Proofs.Inference.Guided
import BeliefGraph.Proofs.Numeric.Order

/-!
# A round applies the best rule that fits

A rule fits a store when each of its premises matches a live atom. The choice of a round is a scan over
the rules that keeps the best one so far and does not even look for matches of a rule that could not
beat it. What it ends with is nevertheless the first of the fitting rules with the highest priority
(`Choice.Best`, `Choice.leads_select`): what was passed over could not have won then, and the best
priority only rises.

This needs priorities to be numbers. The complexity of a chainer with valid settings starts at zero or
above and grows, perhaps beyond all finite numbers (`Settings.Complexity.nonnegative`), and a finite weight
divided by one plus such a complexity is a number (`Rule.isNaN_priority`).
-/

namespace BeliefGraph

/-! ## Complexities and priorities -/

/-- The complexities that a chainer comes to with some settings, however many rounds it runs. -/
inductive Settings.Complexity (settings : Settings) : Float32 → Prop
  | initial : Complexity settings settings.chainer.initialComplexity
  | grown {c : Float32} (h : Complexity settings c) :
      Complexity settings (c + settings.chainer.complexityStep)

/-- An accepted complexity is a number that is not negative. -/
theorem Settings.nonnegative_of_isComplexity {x : Float32} (h : isComplexity x = true) :
    Single.Nonnegative x := by
  rw [isComplexity, Bool.and_eq_true, Bool.not_eq_true', decide_eq_false_iff_not] at h
  exact Single.nonnegative_of_isFinite h.1 h.2

/-- Settings that are accepted begin with a complexity, and add to it, that are not negative. -/
theorem Settings.nonnegative_of_validate {settings : Settings} (h : settings.validate = .ok ()) :
    Single.Nonnegative settings.chainer.initialComplexity ∧
      Single.Nonnegative settings.chainer.complexityStep := by
  rw [validate] at h
  split at h
  · cases h
  · next hinitial =>
    split at h
    · cases h
    · next hstep =>
      rw [Bool.not_eq_true', Bool.not_eq_false] at hinitial hstep
      exact ⟨nonnegative_of_isComplexity hinitial, nonnegative_of_isComplexity hstep⟩

/-- Complexities do not fall below zero, also when they overflow. -/
theorem Settings.Complexity.nonnegative {settings : Settings} {c : Float32}
    (h : settings.Complexity c) (hvalid : settings.validate = .ok ()) : Single.Nonnegative c := by
  obtain ⟨hinitial, hstep⟩ := nonnegative_of_validate hvalid
  induction h with
  | initial => exact hinitial
  | grown _ ih => exact ih.add hstep

/-- A run goes from one of the complexities to another. -/
theorem GuidedRun.complexity_rounds {settings : Settings} {run : GuidedRun}
    (hstep : run.complexityStep = settings.chainer.complexityStep) (n : Nat) {g : GuidedProgress}
    (h : settings.Complexity g.complexity) : settings.Complexity (run.rounds n g).complexity := by
  induction n generalizing g with
  | zero => exact h
  | succ n ih =>
    rw [rounds]
    simp only
    split
    · exact h
    · split
      · exact h
      · split
        · exact h
        · refine ih ?_
          rw [hstep]
          exact .grown h

/-- A priority is a number. -/
theorem Rule.isNaN_priority (r : Rule) {c : Float32} (h : Single.Nonnegative c) :
    (r.priority c).isNaN = false :=
  Single.isNaN_div_one_add r.weight_finite h

/-- A rule that is built concludes the kind that its conclusion asks for. -/
theorem Rule.Draft.conclusionKind_of_build {d : Rule.Draft} {r : Rule} (h : d.build = .ok r) :
    r.conclusion.kind = some r.conclusionKind ∧ r.conclusion.wildcard = false := by
  rw [build] at h
  split at h
  · cases h
  · next conclusion _ =>
    split at h
    · cases h
    · split at h
      · cases h
      · next kind hkind =>
        split at h
        · cases h
          split at hkind
          · cases hkind
          · next hwildcard => exact ⟨hkind, Bool.not_eq_true _ ▸ hwildcard⟩
        · cases h

/-! ## Rules that fit -/

namespace Store

/-- The atom that a pattern finds: the one with the smallest id among the live atoms that match. -/
structure FirstMatch (s : Store) (p : Pattern) (a : Atom) : Prop where
  mem : a ∈ s.atoms
  accepts : p.accepts s.get? a = true
  least : ∀ b ∈ s.atoms, p.accepts s.get? b = true → a.id ≤ b.id

/-- Each premise of a rule matches a live atom. -/
def Fits (s : Store) (r : Rule) : Prop :=
  ∀ p ∈ r.premises, ∃ a ∈ s.atoms, p.accepts s.get? a = true

variable {s : Store} {p : Pattern} {a : Atom}

/-- The first of the matches of a pattern is its first match in the order of ids. -/
theorem Sound.firstMatch (hs : s.Sound) (h : (s.matching p).head? = some a) : s.FirstMatch p a := by
  have hsorted : (s.matching p).Pairwise ById := hs.pairwise_atoms.filter _
  obtain ⟨rest, hmatching⟩ := List.head?_eq_some_iff.mp h
  have hmem : ∀ b, b ∈ s.matching p ↔ b ∈ s.atoms ∧ p.accepts s.get? b = true :=
    fun b => List.mem_filter
  have ha : a ∈ s.matching p := hmatching ▸ List.mem_cons_self
  refine ⟨((hmem a).mp ha).1, ((hmem a).mp ha).2, fun b hb haccepts => ?_⟩
  have hb := (hmem b).mpr ⟨hb, haccepts⟩
  rw [hmatching] at hsorted hb
  rcases List.mem_cons.mp hb with rfl | hb
  · exact Nat.le_refl _
  · exact ((List.pairwise_cons.mp hsorted).1 b hb).le

/-- A rule fits when its premises can be bound. -/
theorem fits_iff {r : Rule} : s.Fits r ↔ ∃ bound, Choice.bind? s r.premises = some bound :=
  Choice.exists_bind?_iff.symm

end Store

/-! ## The scan over the rules -/

namespace Choice

/-- A choice is the best one among some rules: of the rules that fit, those before it have a lower priority
and those behind it do not have a higher one. -/
structure Best (s : Store) (complexity : Float32) (rules : List Rule) (choice : Choice) : Prop where
  priority : choice.priority = choice.rule.priority complexity
  /-- Each premise is bound to its first match. -/
  bound : List.Forall₂ s.FirstMatch choice.rule.premises choice.bound
  first : ∃ front behind, rules = front ++ choice.rule :: behind ∧
    (∀ r ∈ front, s.Fits r → r.priority complexity < choice.priority) ∧
    ∀ r ∈ behind, s.Fits r → r.priority complexity ≤ choice.priority

/-- What a scan has come to after some rules. -/
def Leads (s : Store) (complexity : Float32) (rules : List Rule) : Option Choice → Prop
  | none => ∀ r ∈ rules, ¬ s.Fits r
  | some choice => choice.Best s complexity rules

variable {s : Store} {complexity : Float32} {rules : List Rule} {rule : Rule} {choice : Choice}
  {best : Option Choice}

/-- No rule that fits is better. -/
theorem Best.le (h : choice.Best s complexity rules)
    (hnumber : ∀ r : Rule, (r.priority complexity).isNaN = false) {r : Rule} (hr : r ∈ rules)
    (hfits : s.Fits r) : r.priority complexity ≤ choice.priority := by
  obtain ⟨front, behind, rfl, hfront, hbehind⟩ := h.first
  rcases List.mem_append.mp hr with hr | hr
  · have hlt := hfront r hr hfits
    rw [h.priority] at hlt ⊢
    exact Single.le_of_lt (hnumber r) (hnumber choice.rule) hlt
  · rcases List.mem_cons.mp hr with rfl | hr
    · rw [h.priority]
      exact Single.le_self (hnumber choice.rule)
    · exact hbehind r hr hfits

/-- The best choice stays when a rule is no better or does not fit. -/
theorem Best.concat (h : choice.Best s complexity rules)
    (hrule : s.Fits rule → rule.priority complexity ≤ choice.priority) :
    choice.Best s complexity (rules ++ [rule]) where
  priority := h.priority
  bound := h.bound
  first := by
    obtain ⟨front, behind, hrules, hfront, hbehind⟩ := h.first
    refine ⟨front, behind ++ [rule], by rw [hrules, List.append_assoc, List.cons_append], hfront, ?_⟩
    intro r hr
    rcases List.mem_append.mp hr with hr | hr
    · exact hbehind r hr
    · rw [List.mem_singleton.mp hr]
      exact hrule

/-- A rule that fits and beats all rules before it is the best. -/
theorem best_of_ofRule? (hs : s.Sound) (h : ofRule? s complexity rule = some choice)
    (hbefore : ∀ r ∈ rules, s.Fits r → r.priority complexity < rule.priority complexity) :
    choice.Best s complexity (rules ++ [rule]) := by
  obtain ⟨bound, hbound, rfl⟩ := Option.map_eq_some_iff.mp h
  exact ⟨rfl, (bind?_eq_some.mp hbound).imp fun _ _ => hs.firstMatch, rules, [], rfl, hbefore,
    by simp⟩

/-- A rule for which there is no choice does not fit. -/
theorem not_fits_of_ofRule? (h : ofRule? s complexity rule = none) : ¬ s.Fits rule := by
  rw [Store.fits_iff]
  rintro ⟨bound, hbound⟩
  rw [ofRule?, hbound] at h
  cases h

/-- One rule more. -/
theorem Leads.better (hs : s.Sound) (hnumber : ∀ r : Rule, (r.priority complexity).isNaN = false)
    (h : Leads s complexity rules best) (rule : Rule) :
    Leads s complexity (rules ++ [rule]) (better s complexity best rule) := by
  cases best with
  | none =>
    rw [Choice.better]
    cases hrule : ofRule? s complexity rule with
    | none => exact List.forall_mem_append.mpr ⟨h, by simpa using not_fits_of_ofRule? hrule⟩
    | some choice => exact best_of_ofRule? hs hrule fun r hr hfits => absurd hfits (h r hr)
  | some choice =>
    rw [Choice.better]
    split
    · next hle => exact h.concat fun _ => hle
    · next hlt =>
      cases hrule : ofRule? s complexity rule with
      | none => exact h.concat fun hfits => absurd hfits (not_fits_of_ofRule? hrule)
      | some better =>
        -- What does not beat the best so far does not beat what does.
        rw [h.priority, Single.not_le_iff (hnumber rule) (hnumber choice.rule)] at hlt
        refine best_of_ofRule? hs hrule fun r hr hfits => ?_
        have hle := h.le hnumber hr hfits
        rw [h.priority] at hle
        exact Single.lt_of_le_of_lt (hnumber r) (hnumber choice.rule) (hnumber rule) hle hlt

/-- The scan comes to the best choice, or to none when no rule fits. -/
theorem leads_select (hs : s.Sound) (hnumber : ∀ r : Rule, (r.priority complexity).isNaN = false)
    (rules : List Rule) : Leads s complexity rules (select s complexity rules) := by
  -- The induction is on the rules that are left, for any rules that the scan has behind it.
  have hfold : ∀ (rules done : List Rule) (best : Option Choice), Leads s complexity done best →
      Leads s complexity (done ++ rules) (rules.foldl (Choice.better s complexity) best) := by
    intro rules
    induction rules with
    | nil =>
      intro done best h
      rwa [List.append_nil]
    | cons rule rules ih =>
      intro done best h
      rw [List.foldl_cons, List.append_cons]
      exact ih _ _ (h.better hs hnumber rule)
  exact hfold rules [] none fun r hr => absurd hr List.not_mem_nil

/-! ## What the best rule makes -/

/-- An atom is what the rule of a choice concludes from what its premises are bound to. -/
structure Concludes (choice : Choice) (a : Atom) : Prop where
  kind : a.kind = choice.rule.conclusionKind
  link : 2 ≤ choice.rule.conclusion.children.length → 2 ≤ choice.rule.premises.length →
    a.shape = .link (choice.bound.map Atom.id)
  node : choice.rule.conclusion.children.length < 2 ∨ choice.rule.premises.length < 2 →
    a.shape = .node choice.rule.conclusion.label
  formula : ∀ f, choice.rule.formula = some f → a.truth = f.compute (choice.bound.map Atom.truth)
  deduction : choice.rule.formula = none → ∀ first second rest,
    choice.bound = first :: second :: rest → a.truth = first.truth.deduction second.truth
  unknown : choice.rule.formula = none → choice.bound.length < 2 → a.truth = Truth.unknown

/-- What a round derives for a choice. -/
theorem concludes_nextAtom (s : Store) (choice : Choice) :
    choice.Concludes (s.nextAtom choice.rule.conclusionKind (choice.rule.shape choice.bound)
      ((choice.rule.truth? (choice.bound.map Atom.truth)).getD Truth.unknown)) where
  kind := rfl
  link hchildren hpremises := by
    have hlink : choice.rule.concludesLink = true := by
      simp [Rule.concludesLink, hchildren, hpremises]
    show choice.rule.shape choice.bound = _
    rw [Rule.shape, if_pos hlink]
  node hfew := by
    have hlink : ¬ choice.rule.concludesLink = true := by
      rw [Rule.concludesLink, Bool.and_eq_true, decide_eq_true_iff, decide_eq_true_iff]
      omega
    show choice.rule.shape choice.bound = _
    rw [Rule.shape, if_neg hlink]
  formula f hf := by
    show (choice.rule.truth? _).getD _ = _
    simp only [Rule.truth?, hf, Option.getD_some]
  deduction hnone first second rest hbound := by
    show (choice.rule.truth? _).getD _ = _
    simp only [Rule.truth?, hnone, hbound, List.map_cons, Option.getD_some]
  unknown hnone hfew := by
    show (choice.rule.truth? _).getD _ = _
    simp only [Rule.truth?, hnone]
    generalize choice.bound = bound at hfew ⊢
    rcases bound with _ | ⟨first, _ | ⟨second, rest⟩⟩
    · rfl
    · rfl
    · rw [List.length_cons, List.length_cons] at hfew
      omega

end Choice

/-! ## The round -/

namespace GuidedRun

variable {run : GuidedRun} {g : GuidedProgress} {choice : Choice}

/-- A round with a choice makes one atom, which is what the rule of the choice concludes, and changes no
other one; a full store refuses it and is left as it is. -/
theorem rounds_of_choice (hs : g.progress.store.Sound)
    (hselect : Choice.select g.progress.store g.complexity run.rules = some choice) :
    (∃ limit, g.progress.store.IsFull limit ∧ ∀ n, run.rounds (n + 1) g = refused g limit) ∨
      ((∀ limit, ¬ g.progress.store.IsFull limit) ∧ ∃ a p, choice.Concludes a ∧
        a.id = g.progress.store.nextId ∧ p.store.atoms = g.progress.store.atoms ++ [a] ∧
        p.created = g.progress.created ++ [a] ∧
        ∀ n, run.rounds (n + 1) g =
          if run.goal.any a.meets then { g with progress := p }
          else run.rounds n (run.grow p g.complexity)) := by
  rcases g.progress.store.derive_cases choice.rule.conclusionKind (choice.rule.shape choice.bound)
    ((choice.rule.truth? (choice.bound.map Atom.truth)).getD Truth.unknown)
    with ⟨limit, hfull, hderive⟩ | ⟨hroom, hderive⟩
  · exact .inl ⟨limit, hfull, fun n => by simp only [rounds, hselect, hderive, refused]⟩
  · have happlies : run.Applies g _ _ := .intro hselect rfl hderive
    refine .inr ⟨hroom, _, _, choice.concludes_nextAtom g.progress.store, rfl,
      (happlies.grown hs).atoms, (happlies.applied hs).created, fun n => ?_⟩
    simp only [rounds, hselect, hderive, grow]

/-- A round of a rule-guided run with built rules and valid settings applies the best rule that fits. All
priorities are numbers, and the complexities go on to be ones that the settings lead to. There is no
choice exactly when no rule fits; otherwise the choice is the first of the fitting rules with the highest
priority, with each premise bound to its first match. The round makes the one atom that the rule
concludes from these, and all others stay as they are; only a full store refuses it. -/
theorem rounds_apply_best (run : GuidedRun) (g : GuidedProgress) (settings : Settings)
    (hvalid : settings.validate = .ok ())
    (hstep : run.complexityStep = settings.chainer.complexityStep)
    (hcomplexity : settings.Complexity g.complexity)
    (hrules : ∀ r ∈ run.rules, ∃ d : Rule.Draft, d.build = .ok r) (hs : g.progress.store.Sound) :
    (∀ n, settings.Complexity (run.rounds n g).complexity) ∧
      (∀ r ∈ run.rules, (r.priority g.complexity).isNaN = false) ∧
      (Choice.select g.progress.store g.complexity run.rules = none ↔
        ∀ r ∈ run.rules, ¬ g.progress.store.Fits r) ∧
      ∀ choice, Choice.select g.progress.store g.complexity run.rules = some choice →
        choice.Best g.progress.store g.complexity run.rules ∧
        choice.rule.conclusion.kind = some choice.rule.conclusionKind ∧
        ((∃ limit, g.progress.store.IsFull limit ∧ ∀ n, run.rounds (n + 1) g = refused g limit) ∨
          ((∀ limit, ¬ g.progress.store.IsFull limit) ∧ ∃ a p, choice.Concludes a ∧
            a.id = g.progress.store.nextId ∧ p.store.atoms = g.progress.store.atoms ++ [a] ∧
            p.created = g.progress.created ++ [a] ∧
            ∀ n, run.rounds (n + 1) g =
              if run.goal.any a.meets then { g with progress := p }
              else run.rounds n (run.grow p g.complexity))) := by
  have hnumber : ∀ r : Rule, (r.priority g.complexity).isNaN = false :=
    fun r => r.isNaN_priority (hcomplexity.nonnegative hvalid)
  have hleads := Choice.leads_select hs hnumber run.rules
  refine ⟨fun n => complexity_rounds hstep n hcomplexity, fun r _ => hnumber r, ?_,
    fun choice hselect => ⟨?_, ?_, rounds_of_choice hs hselect⟩⟩
  · constructor
    · intro hnone
      rwa [hnone] at hleads
    · intro hnone
      cases hselect : Choice.select g.progress.store g.complexity run.rules with
      | none => rfl
      | some choice =>
        obtain ⟨hmem, hbound⟩ := Choice.select_sound hselect
        exact absurd (Store.fits_iff.mpr ⟨_, hbound⟩) (hnone _ hmem)
  · rwa [hselect] at hleads
  · obtain ⟨d, hd⟩ := hrules choice.rule (Choice.select_sound hselect).1
    exact (Rule.Draft.conclusionKind_of_build hd).1

end GuidedRun

/-- A rule that concludes an inheritance link from any two atoms. -/
def Rule.linking : Rule :=
  { Rule.naming "" with
    name := "link"
    premises := [.any, .any]
    conclusion := .link .inheritance [.any, .any]
    conclusionKind := .inheritance
    premises_ne_nil := List.cons_ne_nil _ _ }

/-- A rule of greater weight that needs a link. -/
def Rule.heavy : Rule where
  name := "heavy"
  premises := [.link .implication [.any, .any]]
  conclusion := .node .concept "linked"
  conclusionKind := .concept
  formula := none
  weight := 3
  premises_ne_nil := List.cons_ne_nil _ _
  weight_finite := by decide

namespace Space

/-- A space with the concept `a` and three rules. -/
def threeRules : Space :=
  { ofSettings {} with
    store := ((Store.empty none).run [.createNode .concept (some "a")]).2
    reasoner := { (ofSettings {}).reasoner with
      rules := [.heavy, .linking, .naming "b"] } }

end Space

namespace GuidedRun

/-- The heaviest rule does not fit, and of the two others, which have the same priority, the first one is
applied. -/
theorem rounds_apply_best_threeRules :
    ∃ choice a p,
      Choice.select Space.threeRules.store 1 Space.threeRules.reasoner.rules = some choice ∧
        choice.Best Space.threeRules.store 1 Space.threeRules.reasoner.rules ∧
        choice.rule = Rule.linking ∧ a.id = 2 ∧ a.kind = .inheritance ∧ a.shape = .link [1, 1] ∧
        p.store.atoms = Space.threeRules.store.atoms ++ [a] ∧
        (Space.threeRules.guidedRun none).rounds 1 Space.threeRules.guidedStart
          = (Space.threeRules.guidedRun none).grow p 1 := by
  have hs : Space.threeRules.store.Sound := Store.Reachable.sound ⟨none, _, rfl⟩
  have hrules : ∀ r ∈ Space.threeRules.reasoner.rules, ∃ d : Rule.Draft, d.build = .ok r := by
    intro r hr
    simp only [Space.threeRules, List.mem_cons, List.not_mem_nil, or_false] at hr
    rcases hr with rfl | rfl | rfl
    · exact ⟨⟨"heavy", [.link .implication [.any, .any]], some (.node .concept "linked"), none, 3⟩, rfl⟩
    · exact ⟨⟨"link", [.any, .any], some (.link .inheritance [.any, .any]), none, 1⟩, rfl⟩
    · exact ⟨⟨"name", [.any], some (.node .concept "b"), none, 1⟩, rfl⟩
  have hselect : Choice.select Space.threeRules.store 1 Space.threeRules.reasoner.rules
      = some ⟨Rule.linking.priority 1, Rule.linking, [Space.named "a" 1, Space.named "a" 1]⟩ := rfl
  obtain ⟨-, -, -, hchoice⟩ := rounds_apply_best (Space.threeRules.guidedRun none)
    Space.threeRules.guidedStart {} rfl rfl .initial hrules hs
  obtain ⟨hbest, -, hround⟩ := hchoice _ hselect
  rcases hround with ⟨limit, hfull, -⟩ | ⟨-, a, p, hconcludes, hid, hatoms, -, hrounds⟩
  · exact absurd hfull.1 nofun
  · refine ⟨_, a, p, hselect, hbest, rfl, hid, hconcludes.kind, ?_, hatoms, hrounds 0⟩
    exact hconcludes.link (Nat.le_refl 2) (Nat.le_refl 2)

end GuidedRun

namespace Space

/-- A space that is full with the concept `a`, and a rule that fits it. -/
def cramped : Space :=
  { naming "b" with store := ((Store.empty (some 1)).run [.createNode .concept (some "a")]).2 }

end Space

namespace GuidedRun

/-- A full store refuses what the best rule would make, and is left as it is. -/
theorem rounds_refused_cramped :
    Space.cramped.store.Reachable ∧ Settings.validate {} = .ok () ∧
      Settings.Complexity {} Space.cramped.guidedStart.complexity ∧
      (∃ d : Rule.Draft, d.build = .ok (Rule.naming "b")) ∧
      Space.cramped.reasoner.rules = [Rule.naming "b"] ∧
      (Choice.select Space.cramped.store Space.cramped.guidedStart.complexity
        Space.cramped.reasoner.rules).isSome = true ∧
      (Space.cramped.chain none).1 = .error (.exhausted 1) ∧
      ¬ ∃ a, (Space.cramped.chain none).2.store.atoms = Space.cramped.store.atoms ++ [a] := by
  have hatoms : (Space.cramped.chain none).2.store.atoms = Space.cramped.store.atoms := rfl
  refine ⟨⟨some 1, _, rfl⟩, rfl, .initial, ⟨⟨"name", [.any], some (.node .concept "b"), none, 1⟩, rfl⟩,
    rfl, rfl, rfl, ?_⟩
  rintro ⟨a, hmade⟩
  rw [hatoms] at hmade
  exact absurd (List.self_eq_append_right.mp hmade) (List.cons_ne_nil _ _)

end GuidedRun

end BeliefGraph
