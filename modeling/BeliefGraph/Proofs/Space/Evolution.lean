import BeliefGraph.Proofs.Inference.Guided
import BeliefGraph.Proofs.Space.Requests
import BeliefGraph.Proofs.Store.Evolution
import BeliefGraph.Proofs.Store.Spread

/-!
# How the store of a space evolves

No action does anything to the store of a space but change it step by step: inference makes atoms and
gives them their truth, spreading and decay give atoms other values, and the rest is one change or none
(`Space.evolves_act`). So what such changes keep holds of every space that actions lead to.
-/

namespace BeliefGraph

/-! ## Inference -/

/-- Making an atom under the next id with a truth value is a stretch of the store's evolution. -/
theorem Store.Sound.evolves_withNext {s : Store} (hs : s.Sound) (kind : Kind) (shape : Shape)
    (truth : Truth) : s.Evolves (s.withNext kind shape truth) :=
  (Evolves.of (.placed kind shape)).modify (hs.place kind shape) _ _ _

/-- Rounds of forward chaining only make atoms. -/
theorem Progress.evolves_forward {p : Progress} (hs : p.store.Sound) (target : Option Id) (rounds : Nat) :
    p.store.Evolves (p.forward target rounds).store :=
  forward_induction (P := p.store.Evolves) (Q := fun _ => True)
    (fun _ kind shape truth _ h => h.trans ((h.sound hs).evolves_withNext kind shape truth))
    (fun _ _ _ _ _ _ => trivial) (.refl _) target rounds

/-- So do the rounds of a guided run, whether a rule is applied or edges are joined. -/
theorem GuidedRun.evolves_rounds (run : GuidedRun) {g : GuidedProgress} (hs : g.progress.store.Sound)
    (n : Nat) : g.progress.store.Evolves (run.rounds n g).progress.store :=
  rounds_induction (P := g.progress.store.Evolves) (Q := fun _ => True)
    (fun _ kind shape truth _ h => h.trans ((h.sound hs).evolves_withNext kind shape truth))
    (fun _ _ _ _ _ _ => trivial) (fun _ _ _ _ _ => trivial) (.refl _) n

/-- And so does the chainer, with rules or without. -/
theorem GuidedChainer.evolves_run (c : GuidedChainer) (rules : List Rule) {p : Progress}
    (hs : p.store.Sound) (target : Option Id) :
    p.store.Evolves (c.run rules p target).progress.store := by
  unfold run
  split
  · exact Progress.evolves_forward hs target _
  · exact GuidedRun.evolves_rounds _ (g := ⟨p, c.complexity⟩) hs _

/-! ## Actions -/

namespace Space

variable {space after : Space}

/-- A request about one atom moves the store along. -/
theorem evolves_ask (hs : space.store.Sound) (id : Id) (request : Request) :
    space.store.Evolves (space.ask id request).2.store := by
  cases hget : space.store.get? id with
  | none =>
    rw [ask_missing hget]
    exact .refl _
  | some a =>
    rcases space.store_ask_cases hget request with
      ⟨-, hstore⟩ | ⟨w, -, hstore⟩ | ⟨mode, hstore⟩ | hstore <;> rw [hstore]
    · obtain rfl := hs.keyed hget
      exact .of (.deleted hget)
    · exact (Store.Evolves.refl _).modify hs w.id w.truth w.attention
    · exact hs.evolves_spreadFrom a mode
    · exact .refl _

/-- A creation moves the store along, also one that a full store refuses. -/
theorem evolves_create (space : Space) (kind : Kind) (shape : Shape) :
    space.store.Evolves (space.onStore (space.store.create kind shape)).2.store := by
  rcases space.store.create_cases kind shape with ⟨limit, -, hcreate⟩ | ⟨-, hcreate⟩
  · rw [hcreate]
    exact .refl _
  · rw [hcreate]
    exact .of (.placed kind shape)

/-- Every action takes the store through some changes. -/
theorem evolves_act (hs : space.store.Sound) (action : Action) :
    space.store.Evolves (space.act action).2.store := by
  cases action with
  | about id request => exact evolves_ask hs id request
  | createNode kind label => exact space.evolves_create kind _
  | createLink kind outgoing => exact space.evolves_create kind _
  | reserve => exact .of .reserved
  | forward target rounds => exact Progress.evolves_forward (p := space.startRun) hs target rounds
  | chain target => exact space.chainer.evolves_run space.reasoner.rules (p := space.startRun) hs target
  | addRule rule => exact .refl _
  | resetLedger => exact .refl _
  | updateFocus => exact .refl _
  | decay rate => exact .of (.revalued (space.store.revalued_decay rate))

/-- Actions, one after the other, move the store along. -/
theorem evolves_run (hs : space.store.Sound) (actions : List Action) :
    space.store.Evolves (space.run actions).2.store := by
  induction actions generalizing space with
  | nil => exact .refl _
  | cons action actions ih =>
    have hfirst := evolves_act hs action
    exact hfirst.trans (ih (hfirst.sound hs))

/-- A space that some actions lead to, from a space without atoms. -/
def Reachable (space : Space) : Prop :=
  ∃ settings actions, ((ofSettings settings).run actions).2 = space

/-- The first store of a space is filed. -/
theorem filed_ofSettings (settings : Settings) : (ofSettings settings).store.Filed := .empty _

/-- Whatever the settings and the actions were, the store of a space is filed. -/
theorem Reachable.filed (h : space.Reachable) : space.store.Filed := by
  obtain ⟨settings, actions, rfl⟩ := h
  have hempty := filed_ofSettings settings
  exact hempty.evolves (evolves_run hempty.sound actions)

end Space

end BeliefGraph
