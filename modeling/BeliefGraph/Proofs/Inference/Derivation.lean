import BeliefGraph.Proofs.Inference.Rounds

/-!
# Derivations

Inference derives atoms for two reasons: two edges meet, or the premises of a rule are bound. Which
atom a derivation makes, and what it counts for, is read off the derivation; the id is the one that the
store hands out next. `Store.Derives` lists the derivations that lead from a store to a later one,
each with a reason that the store gives when its turn comes, and `Progress.Follows` says what a run has
come to after some derivations: the store, and the counters that account for them.
-/

namespace BeliefGraph

/-- A reason to derive an atom. -/
inductive Derivation
  /-- The first edge ends where the second one starts. -/
  | joined (first second : Edge)
  /-- The premises of a rule are bound to some atoms. -/
  | applied (rule : Rule) (bound : List Atom)

namespace Derivation

def kind : Derivation → Kind
  | joined first _ => first.statement.kind
  | applied rule _ => rule.conclusionKind

def shape : Derivation → Shape
  | joined first second => .link [first.source, second.target]
  | applied rule bound => rule.shape bound

/-- The truth that is computed, if there is something to compute it from. -/
def truth? : Derivation → Option Truth
  | joined first second => some (first.truth.deduction second.truth)
  | applied rule bound => rule.truth? (bound.map Atom.truth)

/-- The truth of what is derived. -/
def truth (d : Derivation) : Truth := d.truth?.getD Truth.unknown

def byRule : Derivation → Bool
  | joined .. => false
  | applied .. => true

/-- Whether a truth is computed. -/
def computes (d : Derivation) : Bool := d.truth?.isSome

/-- A store gives the reason. -/
def Supported (rules : List Rule) (s : Store) : Derivation → Prop
  | joined first second => first ∈ s.edges ∧ second ∈ s.edges ∧ first.target = second.source
  | applied rule bound => rule ∈ rules ∧ Choice.bind? s rule.premises = some bound

end Derivation

/-! ## Derivations in a store -/

namespace Store

/-- The atom that a derivation makes. -/
def derivedAtom (s : Store) (d : Derivation) : Atom := s.nextAtom d.kind d.shape d.truth

/-- The store with that atom. -/
def withDerived (s : Store) (d : Derivation) : Store := s.withNext d.kind d.shape d.truth

/-- Derivations one after the other, each supported when its turn comes, and the atoms they make. -/
inductive Derives (rules : List Rule) : Store → List Derivation → List Atom → Store → Prop
  | refl {s : Store} : Derives rules s [] [] s
  | step {s last : Store} {d : Derivation} {ds : List Derivation} {made : List Atom}
      (supported : d.Supported rules s) (rest : Derives rules (s.withDerived d) ds made last) :
      Derives rules s (d :: ds) (s.derivedAtom d :: made) last

variable {rules : List Rule} {s mid after : Store} {d : Derivation} {ds ds' : List Derivation}
  {made more : List Atom}

/-- One derivation that the store supports makes one atom. -/
theorem Derives.single (h : d.Supported rules s) :
    s.Derives rules [d] [s.derivedAtom d] (s.withDerived d) :=
  .step h .refl

/-- Derivations go on from where others end. -/
theorem Derives.append (h : s.Derives rules ds made mid) (h' : mid.Derives rules ds' more after) :
    s.Derives rules (ds ++ ds') (made ++ more) after := by
  induction h with
  | refl => exact h'
  | step supported _ ih => exact .step supported (ih h')

/-- Each derivation makes an atom. -/
theorem Derives.length (h : s.Derives rules ds made after) : made.length = ds.length := by
  induction h with
  | refl => rfl
  | step _ _ ih => exact congrArg Nat.succ ih

/-- What a derivation references is known. -/
theorem knows_of_supported (hs : s.Sound) (h : d.Supported rules s) {id : Id}
    (hid : id ∈ d.shape.outgoing) : s.Knows id := by
  cases d with
  | joined first second =>
    obtain ⟨hfirst, hsecond, -⟩ := h
    rcases List.mem_cons.mp hid with rfl | hid
    · exact (knows_of_mem_edges hfirst).1
    · rw [List.mem_singleton.mp hid]
      exact (knows_of_mem_edges hsecond).2
  -- the conclusion of a rule references what the variables are bound to, all of them live
  | applied rule bound => exact GuidedRun.knows_shape hs (fun a => Choice.mem_of_bind? h.2) hid

/-- Derivations make a store grow. -/
theorem Derives.grown (h : s.Derives rules ds made after) (hs : s.Sound) : s.Grown made after := by
  induction h with
  | refl => exact .refl hs
  | @step s _ d _ _ supported _ ih =>
    have hfirst : s.Grown [s.derivedAtom d] (s.withDerived d) :=
      hs.grown_withNext d.kind d.truth d.shape fun id hid => knows_of_supported hs supported hid
    exact hfirst.trans (ih hfirst.sound)

/-- The store grows by one atom for each derivation. -/
theorem Derives.size (h : s.Derives rules ds made after) (hs : s.Sound) :
    after.size = s.size + made.length := by
  rw [size_eq_length_atoms, (h.grown hs).atoms, List.length_append, size_eq_length_atoms]

/-- An edge stays an edge. -/
theorem mem_edges_withDerived (hs : s.Sound) {e : Edge} (he : e ∈ s.edges) (d : Derivation) :
    e ∈ (s.withDerived d).edges := by
  obtain ⟨a, ha, hedge⟩ := mem_edges.mp he
  refine mem_edges.mpr ⟨a, ?_, hedge⟩
  rw [withDerived, hs.atoms_withNext]
  exact List.mem_append_left _ ha

end Store

/-! ## What derivations count for -/

/-- Counters account for some derivations. -/
structure Ledger.Accounts (before : Ledger) (ds : List Derivation) (after : Ledger) : Prop where
  inferences : after.inferences = before.inferences + ds.length
  ruleMatches : after.ruleMatches = before.ruleMatches + ds.countP Derivation.byRule
  truthComputations :
    after.truthComputations = before.truthComputations + ds.countP Derivation.computes

theorem Ledger.Accounts.refl (l : Ledger) : l.Accounts [] l := ⟨rfl, rfl, rfl⟩

/-- The counters of two batches of derivations add up. -/
theorem Ledger.Accounts.append {l mid after : Ledger} {ds ds' : List Derivation}
    (h : l.Accounts ds mid) (h' : mid.Accounts ds' after) : l.Accounts (ds ++ ds') after where
  inferences := by rw [h'.inferences, h.inferences, List.length_append, Nat.add_assoc]
  ruleMatches := by rw [h'.ruleMatches, h.ruleMatches, List.countP_append, Nat.add_assoc]
  truthComputations := by
    rw [h'.truthComputations, h.truthComputations, List.countP_append, Nat.add_assoc]

/-- Links made by forward chaining count as so many atoms, each with its truth. -/
theorem Ledger.accounts_addDeductions (l : Ledger) {ds : List Derivation}
    (hrule : ∀ d ∈ ds, d.byRule = false) (htruth : ∀ d ∈ ds, d.computes = true) :
    l.Accounts ds (l.addDeductions ds.length) where
  inferences := rfl
  ruleMatches := by
    rw [List.countP_eq_zero.mpr fun d hd => by rw [hrule d hd]; exact Bool.false_ne_true]
    rfl
  truthComputations := by
    rw [List.countP_eq_length.mpr htruth]
    rfl

/-- A rule counts as one atom, and with a truth if it computes one. -/
theorem Ledger.accounts_addRuleMatch (l : Ledger) (rule : Rule) (bound : List Atom) :
    l.Accounts [.applied rule bound] (l.addRuleMatch (rule.truth? (bound.map Atom.truth)).isSome) where
  inferences := rfl
  ruleMatches := rfl
  truthComputations := by
    rw [List.countP_singleton, Derivation.computes, Derivation.truth?]
    cases (rule.truth? (bound.map Atom.truth)).isSome <;> rfl

/-- What a run has come to after some derivations. -/
structure Progress.Follows (rules : List Rule) (p : Progress) (ds : List Derivation)
    (made : List Atom) (after : Progress) : Prop where
  derives : p.store.Derives rules ds made after.store
  accounts : p.ledger.Accounts ds after.ledger

namespace Progress

variable {rules : List Rule} {p mid after : Progress} {ds ds' : List Derivation}
  {made more : List Atom}

theorem Follows.refl (rules : List Rule) (p : Progress) : p.Follows rules [] [] p :=
  ⟨.refl, .refl _⟩

/-- Runs that follow each other follow from their derivations put together. -/
theorem Follows.append (h : p.Follows rules ds made mid) (h' : mid.Follows rules ds' more after) :
    p.Follows rules (ds ++ ds') (made ++ more) after :=
  ⟨h.derives.append h'.derives, h.accounts.append h'.accounts⟩

end Progress

end BeliefGraph
