import BeliefGraph.Proofs.Inference.Guided
import BeliefGraph.Proofs.Space.Requests
import BeliefGraph.Proofs.Truth.Normalized

/-!
# Truth values stay normalized

Inference computes truth values from those of the store by a rule's formula or by deduction, and a
revision merges one with evidence. A store whose truth values are normalized thus keeps them so, as long
as what is supplied is normalized and custom formulas normalize: one lemma for each operation on a
store, one for the derivation of an atom, and from it by induction the runs of both chainers
(`Progress.normalized_forward`, `GuidedRun.normalized_rounds`).
-/

namespace BeliefGraph

/-- Every truth value in a store is normalized. -/
def Store.Normalized (s : Store) : Prop :=
  ∀ a ∈ s.atoms, a.truth.isNormalized = true

/-- If the formula of a rule is a custom one it computes normalized values from normalized ones. -/
def Rule.Normalizes (rule : Rule) : Prop :=
  ∀ combine, rule.formula = some (.custom combine) → (Formula.custom combine).Normalizes

/-- A rule with inputs in range computes a truth value in range, also one without a formula. -/
theorem Rule.isNormalized_truth? {rule : Rule} (h : rule.Normalizes) {inputs : List Truth}
    (hinputs : ∀ t ∈ inputs, t.isNormalized = true) :
    ((rule.truth? inputs).getD Truth.unknown).isNormalized = true := by
  unfold truth?
  cases hformula : rule.formula with
  | some formula =>
    rw [Option.getD_some]
    -- only a custom formula needs the hypothesis; the others are built in
    cases formula with
    | custom combine => exact h combine hformula inputs hinputs
    | _ => exact Formula.normalizes_of_mem_builtIn (by simp [Formula.builtIn]) inputs hinputs
  | none =>
    rcases inputs with _ | ⟨first, _ | ⟨second, rest⟩⟩
    · exact Truth.isNormalized_unknown
    · exact Truth.isNormalized_unknown
    · have hfirst := hinputs first List.mem_cons_self
      have hsecond := hinputs second (List.mem_cons_of_mem _ List.mem_cons_self)
      rw [Option.getD_some]
      exact Truth.isNormalized_deduction hfirst hsecond

/-! ## Operations on a store -/

namespace Store

variable {s : Store}

/-- The atoms of a store are those that some id finds. -/
theorem mem_atoms_iff_get? {a : Atom} : a ∈ s.atoms ↔ ∃ id, s.get? id = some a := by
  simp only [atoms, List.mem_map, Prod.exists, Std.TreeMap.mem_toList_iff_getElem?_eq_some,
    exists_eq_right]
  rfl

/-- A store is normalized if whatever an id finds is. -/
theorem normalized_iff :
    s.Normalized ↔ ∀ id a, s.get? id = some a → a.truth.isNormalized = true := by
  simp only [Normalized, mem_atoms_iff_get?, forall_exists_index]
  exact forall_comm

namespace Normalized

/-- A new atom has the truth value of the unknown, which is in range. -/
theorem place (h : s.Normalized) (kind : Kind) (shape : Shape) : (s.place kind shape).Normalized := by
  rw [normalized_iff] at h ⊢
  intro id a ha
  rw [get?_place] at ha
  split at ha
  · cases ha
    exact Truth.isNormalized_unknown
  · exact h id a ha

/-- To write the values of one atom keeps the store normalized if the new truth is in range. -/
theorem modify (h : s.Normalized) (id : Id) {f : Truth → Truth}
    (hf : ∀ t, t.isNormalized = true → (f t).isNormalized = true) (g : Attention → Attention) :
    (s.modify id f g).Normalized := by
  rw [normalized_iff] at h ⊢
  intro x a ha
  rw [get?_modify] at ha
  split at ha
  · obtain ⟨b, hb, rfl⟩ := Option.map_eq_some_iff.mp ha
    exact hf _ (h x b hb)
  · exact h x a ha

/-- A conclusion with a truth value in range keeps the store normalized. -/
theorem withNext (h : s.Normalized) (kind : Kind) (shape : Shape) {truth : Truth}
    (ht : truth.isNormalized = true) : (s.withNext kind shape truth).Normalized :=
  (h.place kind shape).modify _ (fun _ _ => ht) _

/-- A deletion leaves the truth values of the others. -/
theorem erase (h : s.Normalized) (a : Atom) (id : Id) :
    Normalized { s.unfile a with byId := s.byId.erase id } := by
  rw [normalized_iff] at h ⊢
  intro x b hb
  have hget : (s.byId.erase id)[x]? = some b := hb
  rw [Std.TreeMap.getElem?_erase] at hget
  split at hget
  · cases hget
  · exact h x b hget

/-- Decay changes no truth value. -/
theorem decay (h : s.Normalized) (rate : Float) : (s.decay rate).Normalized := by
  rw [normalized_iff] at h ⊢
  intro x b hb
  have hget : (s.byId.map fun _ a => a.withSti (scaled a.sti (remainder rate)))[x]? = some b := hb
  rw [Std.TreeMap.getElem?_map] at hget
  obtain ⟨a, ha, rfl⟩ := Option.map_eq_some_iff.mp hget
  exact h x a ha

/-- To raise importance changes no truth value. -/
theorem raise (h : s.Normalized) (amount : Int) (id : Id) : (s.raise amount id).Normalized :=
  h.modify id (fun _ ht => ht) _

/-- Spreading changes no truth value. -/
theorem spreadFrom (h : s.Normalized) (source : Atom) (mode : SpreadMode) :
    (s.spreadFrom source mode).2.Normalized := by
  have hraised : ∀ (share : Int) (ids : List Id),
      (ids.foldl (fun s id => s.raise share id) s).Normalized := fun share ids =>
    List.foldlRecOn (motive := Normalized) ids _ h fun _ hs id _ => hs.raise share id
  unfold Store.spreadFrom
  dsimp only
  split
  · exact h
  · cases mode with
    | broadcast => exact hraised _ _
    | conservative => exact (hraised _ _).raise _ _

end Normalized

end Store

/-! ## Inference -/

/-- A deduction from two edges of a normalized store is in range. -/
theorem Store.Normalized.deduction {s : Store} (h : s.Normalized) {e f : Edge} (he : e ∈ s.edges)
    (hf : f ∈ s.edges) : (e.truth.deduction f.truth).isNormalized = true := by
  obtain ⟨a, ha, hedge⟩ := Store.mem_edges.mp he
  obtain ⟨b, hb, hedge'⟩ := Store.mem_edges.mp hf
  obtain ⟨-, -, -, -, htruth⟩ := Edge.ofAtom?_eq_some.mp hedge
  obtain ⟨-, -, -, -, htruth'⟩ := Edge.ofAtom?_eq_some.mp hedge'
  rw [← htruth, ← htruth']
  exact Truth.isNormalized_deduction (h a ha) (h b hb)

/-- Forward chaining deduces from the truth values of two edges. -/
theorem Progress.normalized_forward {p : Progress} (h : p.store.Normalized) (target : Option Id)
    (rounds : Nat) : (p.forward target rounds).store.Normalized :=
  forward_induction (Q := fun t => t.isNormalized = true)
    (fun _ kind shape _ ht hs => hs.withNext kind shape ht)
    (fun _ hs _ he _ hf => hs.deduction he hf) h target rounds

/-- A rule computes from the truth values of atoms in the store. -/
theorem GuidedRun.normalized_rounds {run : GuidedRun} (hrules : ∀ rule ∈ run.rules, rule.Normalizes)
    {g : GuidedProgress} (h : g.progress.store.Normalized) (n : Nat) :
    (run.rounds n g).progress.store.Normalized := by
  refine rounds_induction (Q := fun t => t.isNormalized = true)
    (fun _ kind shape _ ht hs => hs.withNext kind shape ht)
    (fun _ hs _ he _ hf => hs.deduction he hf) ?_ h n
  intro s complexity choice hs hchoice
  obtain ⟨hrule, hbind⟩ := Choice.select_sound hchoice
  refine Rule.isNormalized_truth? (hrules _ hrule) fun t ht => ?_
  obtain ⟨a, ha, rfl⟩ := List.mem_map.mp ht
  exact hs a (Choice.mem_of_bind? hbind ha)

/-! ## Runs of a space -/

/-- What an action supplies is normalized: a truth value, or what the formula of a rule computes. -/
def Action.SuppliesNormalized : Action → Prop
  | .about _ (.setTruth truth) => truth.isNormalized = true
  | .about _ (.reviseTruth evidence) => evidence.isNormalized = true
  | .about _ (.revise evidence) => evidence.isNormalized = true
  | .addRule rule => rule.Normalizes
  | _ => True

namespace Space

variable {space : Space}

/-- All truth values of a space are normalized, and its rules compute no others. -/
structure Normalized (space : Space) : Prop where
  store : space.store.Normalized
  rules : ∀ rule ∈ space.reasoner.rules, rule.Normalizes

/-- Forward chaining keeps all truth values in range. -/
theorem Normalized.forward (h : space.Normalized) (target : Option Id) (rounds : Nat) :
    (space.forward target rounds).2.Normalized :=
  ⟨Progress.normalized_forward (p := space.startRun) h.store target rounds, h.rules⟩

/-- The chainer does, too, with rules or without. -/
theorem Normalized.chain (h : space.Normalized) (target : Option Id) :
    (space.chain target).2.Normalized := by
  refine ⟨?_, h.rules⟩
  show (space.chainer.run space.reasoner.rules space.startRun target).progress.store.Normalized
  unfold GuidedChainer.run
  split
  · exact Progress.normalized_forward h.store target _
  · exact GuidedRun.normalized_rounds h.rules h.store _

/-- A request about one atom changes no rule. -/
theorem rules_ask (space : Space) (id : Id) (request : Request) :
    (space.ask id request).2.reasoner.rules = space.reasoner.rules := by
  cases request with
  | backward rounds =>
    simp only [ask, answering, backward]
    split <;> rfl
  | revise evidence =>
    simp only [ask, answering, revise]
    split <;> rfl
  | allocate delta =>
    simp only [ask, answering, allocate]
    split <;> rfl
  | evaluate => rfl
  | attention => rfl
  | _ => exact congrArg Reasoner.rules (space.reasoner_onStore _)

/-- A request writes the truth value that it supplies, merges that with the one there is, or keeps this. -/
theorem isNormalized_write {id : Id} {request : Request} {w : Operation.Write}
    (hrequest : (Action.about id request).SuppliesNormalized) (hw : request.write? id = some w) {t : Truth}
    (ht : t.isNormalized = true) : (w.truth t).isNormalized = true := by
  cases request with
  | setTruth truth =>
    cases hw
    exact hrequest
  | reviseTruth evidence =>
    cases hw
    exact Truth.isNormalized_revision ht hrequest
  | revise evidence =>
    cases hw
    exact Truth.isNormalized_revision ht hrequest
  | setAttention attention => cases hw; exact ht
  | addSti delta => cases hw; exact ht
  | stimulate delta => cases hw; exact ht
  | allocate delta => cases hw; exact ht
  | _ => cases hw

/-- A request changes at most the truth value of its atom, to one that is normalized. -/
theorem Normalized.store_ask (h : space.store.Normalized) {id : Id} {request : Request}
    (hrequest : (Action.about id request).SuppliesNormalized) :
    (space.ask id request).2.store.Normalized := by
  cases hget : space.store.get? id with
  | none =>
    rw [ask_missing hget]
    exact h
  | some a =>
    rcases space.store_ask_cases hget request with
      ⟨-, hstore⟩ | ⟨w, hw, hstore⟩ | ⟨mode, hstore⟩ | hstore <;> rw [hstore]
    · exact h.erase a id
    · exact h.modify w.id (fun _ => isNormalized_write hrequest hw) w.attention
    · exact h.spreadFrom a mode
    · exact h

/-- A request about one atom keeps a space normalized if the truth value that it brings is in range. -/
theorem Normalized.ask (h : space.Normalized) {id : Id} {request : Request}
    (hrequest : (Action.about id request).SuppliesNormalized) : (space.ask id request).2.Normalized where
  store := store_ask h.store hrequest
  rules := by
    rw [rules_ask]
    exact h.rules

/-- A new atom has the unknown truth value. -/
theorem Normalized.create (h : space.Normalized) (kind : Kind) (shape : Shape) :
    (space.onStore (space.store.create kind shape)).2.Normalized := by
  rcases space.store.create_cases kind shape with ⟨limit, -, hcreate⟩ | ⟨-, hcreate⟩
  · rw [hcreate]
    exact h
  · rw [hcreate]
    exact ⟨h.store.place kind shape, h.rules⟩

/-- One action keeps truth values normalized. -/
theorem Normalized.act (h : space.Normalized) {action : Action} (haction : action.SuppliesNormalized) :
    (space.act action).2.Normalized := by
  cases action with
  | about id request => exact h.ask haction
  | createNode kind label => exact h.create kind _
  | createLink kind outgoing => exact h.create kind _
  | reserve => exact ⟨h.store, h.rules⟩
  | forward target rounds => exact h.forward target rounds
  | chain target => exact h.chain target
  | addRule rule =>
    refine ⟨h.store, fun r hr => ?_⟩
    rcases List.mem_append.mp hr with hr | hr
    · exact h.rules r hr
    · rw [List.mem_singleton.mp hr]
      exact haction
  | resetLedger => exact ⟨h.store, h.rules⟩
  | updateFocus => exact ⟨h.store, h.rules⟩
  | decay rate => exact ⟨h.store.decay rate, h.rules⟩

/-- Truth values stay normalized. Every combinator and every built-in formula, over any list of inputs,
computes normalized values from normalized ones, rounding included. So if the truth values of a space and
those supplied to it are normalized, and custom formulas compute normalized values from normalized ones,
the truth values of the space are normalized after any run: after forward chaining and rule-guided
chaining, whether they end or are stopped by a full store, after revisions, and after everything else
that can be asked of it. -/
theorem truths_stay_normalized :
    (∀ a b : Truth, a.isNormalized = true → b.isNormalized = true →
      (a.deduction b).isNormalized = true ∧ (a.induction b).isNormalized = true ∧
      (a.abduction b).isNormalized = true ∧ (a.revision b).isNormalized = true ∧
      (a.conjunction b).isNormalized = true ∧ (a.disjunction b).isNormalized = true ∧
      a.negation.isNormalized = true) ∧
    (∀ formula ∈ Formula.builtIn, ∀ inputs : List Truth, (∀ t ∈ inputs, t.isNormalized = true) →
      (formula.compute inputs).isNormalized = true) ∧
    ∀ (space : Space) (actions : List Action), (∀ a ∈ space.store.atoms, a.truth.isNormalized = true) →
      (∀ rule ∈ space.reasoner.rules, rule.Normalizes) →
      (∀ action ∈ actions, action.SuppliesNormalized) →
      ∀ a ∈ (space.run actions).2.store.atoms, a.truth.isNormalized = true := by
  refine ⟨fun a b ha hb => ?_, fun _ => Formula.normalizes_of_mem_builtIn, ?_⟩
  · exact ⟨Truth.isNormalized_deduction ha hb, Truth.isNormalized_induction ha hb,
      Truth.isNormalized_abduction ha hb, Truth.isNormalized_revision ha hb,
      Truth.isNormalized_conjunction ha hb, Truth.isNormalized_disjunction ha hb,
      Truth.isNormalized_negation ha⟩
  · intro space actions hstore hrules hactions
    exact (run_induction (P := Normalized) (fun haction h => h.act haction) ⟨hstore, hrules⟩
      hactions).store

/-- The strength is the number next below one. -/
def nearlyTrue : Truth := ⟨Float32.ofBits 0x3f7fffff, 1, 1⟩

/-- The strength is small, and enough for its sum with that one to be rounded up. -/
def hardlyTrue : Truth := ⟨Float32.ofBits 0x34000001, 1, 1⟩

/-- A rule that concludes the negated truth of its premise. -/
def negating : Rule :=
  { Rule.naming "c" with
    formula := some (.custom fun inputs => (inputs.headD Truth.unknown).negation)
    weight := 2
    weight_finite := by decide }

/-- A rule that negates its first premise computes truth values in range from such ones. -/
theorem normalizes_negating : negating.Normalizes := by
  rintro combine ⟨⟩ inputs hinputs
  show (inputs.headD Truth.unknown).negation.isNormalized = true
  refine Truth.isNormalized_negation ?_
  cases inputs with
  | nil => exact Truth.isNormalized_unknown
  | cons first rest => exact hinputs first List.mem_cons_self

/-- The rounded sum in the disjunction is above one. The run joins two links, applies a rule without a
formula and one with a custom formula, and revises what it has made. -/
theorem truths_stay_normalized_naming :
    1 < nearlyTrue.strength + hardlyTrue.strength ∧
      (nearlyTrue.disjunction hardlyTrue).isNormalized = true ∧
      (Formula.disjunction.compute [nearlyTrue, hardlyTrue, nearlyTrue]).isNormalized = true ∧
      ∃ after, ((naming "b").run [.about 1 (.setTruth nearlyTrue),
          .createLink .inheritance ⟨[1, 9], by decide, by decide⟩,
          .createLink .implication ⟨[9, 8], by decide, by decide⟩, .about 2 (.setTruth nearlyTrue),
          .forward none 1, .chain none, .addRule negating, .chain none,
          .about 4 (.reviseTruth hardlyTrue), .about 7 (.revise nearlyTrue)]).2 = after ∧
        after.store.size = 8 ∧ ∀ a ∈ after.store.atoms, a.truth.isNormalized = true := by
  have hnearly : nearlyTrue.isNormalized = true := by decide
  have hhardly : hardlyTrue.isNormalized = true := by decide
  obtain ⟨hcombine, hformula, hrun⟩ := truths_stay_normalized
  refine ⟨by decide, (hcombine _ _ hnearly hhardly).2.2.2.2.2.1,
    hformula .disjunction (by simp [Formula.builtIn]) _ ?_, _, rfl, ?_, hrun _ _ ?_ ?_ ?_⟩
  · simp [hnearly, hhardly]
  · rfl
  · decide
  · intro rule hrule combine hformula
    obtain rfl := List.mem_singleton.mp hrule
    cases hformula
  · simp [Action.SuppliesNormalized, hnearly, hhardly, normalizes_negating]

end Space

end BeliefGraph
