import BeliefGraph.Inference.Guided
import BeliefGraph.Proofs.Inference.Closure

/-!
# What inference adds to a store

Inference does one thing to a store: it derives an atom, which stands under the next id with the truth
that was computed for it. `Store.Grown` says what a store has become after some atoms were derived.
The atoms that were there stay, the new ones stand behind them in the order in which they were made, and
what they reference was known when they were made: it had been handed out, or an atom that was there
referenced it.

A derivation is refused or adds one atom (`Store.derive_cases`). Growth composes, so the rest is done
once for the conclusions of a round and once for the rounds of a run.
-/

namespace BeliefGraph

namespace Store

/-! ## One derivation -/

/-- An id that has been handed out, or that a live atom references. -/
def Knows (s : Store) (id : Id) : Prop :=
  id < s.nextId ∨ ∃ a ∈ s.atoms, id ∈ a.outgoing

/-- The atom that is derived next. -/
def nextAtom (s : Store) (kind : Kind) (shape : Shape) (truth : Truth) : Atom :=
  ⟨s.nextId, kind, shape, truth, Attention.none⟩

/-- The store in which it is derived. -/
def withNext (s : Store) (kind : Kind) (shape : Shape) (truth : Truth) : Store :=
  (s.place kind shape).modify s.nextId (fun _ => truth) fun x => x

/-- A derivation is refused by a full store, and otherwise adds the next atom. -/
theorem derive_cases (s : Store) (kind : Kind) (shape : Shape) (truth : Truth) :
    (∃ limit, s.IsFull limit ∧ s.derive kind shape truth = .error (.exhausted limit)) ∨
      ((∀ limit, ¬ s.IsFull limit) ∧
        s.derive kind shape truth = .ok (s.nextAtom kind shape truth, s.withNext kind shape truth)) := by
  rcases s.create_cases kind shape with ⟨limit, hfull, hcreate⟩ | ⟨hroom, hcreate⟩
  · exact .inl ⟨limit, hfull, by rw [derive, hcreate]; rfl⟩
  · exact .inr ⟨hroom, by rw [derive, hcreate]; rfl⟩

/-- A store without a limit refuses no derivation. -/
theorem Open.derive_eq {s : Store} (hs : s.Open) (kind : Kind) (shape : Shape) (truth : Truth) :
    s.derive kind shape truth = .ok (s.nextAtom kind shape truth, s.withNext kind shape truth) := by
  rw [Store.derive, create_of_unlimited hs.unlimited]
  rfl

/-- Under the next id stands the new atom, and under every other id what stood there before. -/
theorem get?_withNext (s : Store) (kind : Kind) (shape : Shape) (truth : Truth) (id : Id) :
    (s.withNext kind shape truth).get? id
      = if id = s.nextId then some (s.nextAtom kind shape truth) else s.get? id :=
  s.get?_place_modify kind shape _ _ id

variable {s mid after : Store} {made more : List Atom} {kind : Kind} {shape : Shape} {truth : Truth}
  {a : Atom} {id : Id}

/-- A derivation keeps a store sound. -/
theorem Sound.withNext (hs : s.Sound) : (s.withNext kind shape truth).Sound :=
  (hs.place _ _).modify _ _ _

/-- The next atom stands behind the others. -/
theorem Sound.atoms_withNext (hs : s.Sound) :
    (s.withNext kind shape truth).atoms = s.atoms ++ [s.nextAtom kind shape truth] := by
  refine (hs.withNext.eq_atoms ?_ fun a => ?_).symm
  · refine List.pairwise_append.mpr ⟨hs.pairwise_atoms, List.pairwise_singleton _ _, ?_⟩
    intro a ha b hb
    rw [List.mem_singleton.mp hb]
    exact hs.issued (hs.mem_atoms.mp ha)
  · rw [List.mem_append, List.mem_singleton, hs.mem_atoms, get?_withNext]
    by_cases hid : a.id = s.nextId
    · rw [if_pos hid, hs.get?_of_le hid.ge, Option.some.injEq]
      simp only [reduceCtorEq, false_or, eq_comm]
    · rw [if_neg hid, or_iff_left]
      rintro rfl
      exact hid rfl

/-- The ids of live atoms have been handed out. -/
theorem Sound.id_lt (hs : s.Sound) (ha : a ∈ s.atoms) : a.id < s.nextId :=
  hs.issued (hs.mem_atoms.mp ha)

/-! ## Growth -/

/-- What a store has become when some atoms were derived in it. -/
structure Grown (s : Store) (made : List Atom) (after : Store) : Prop where
  sound : after.Sound
  limit : after.limit = s.limit
  nextId : after.nextId = s.nextId + made.length
  /-- The atoms that were there are as they were, and the new ones stand behind them. -/
  atoms : after.atoms = s.atoms ++ made
  /-- The new atoms have the ids that were next. -/
  ids : made.map Atom.id = List.range' s.nextId made.length
  /-- A new atom references what was handed out before it, or what was referenced before all. -/
  references : ∀ a ∈ made, ∀ id ∈ a.outgoing, id < a.id ∨ ∃ b ∈ s.atoms, id ∈ b.outgoing

theorem Grown.refl (hs : s.Sound) : s.Grown [] s where
  sound := hs
  limit := rfl
  nextId := rfl
  atoms := (List.append_nil _).symm
  ids := rfl
  references := by simp

/-- The new atoms have ids that had not been handed out before. -/
theorem Grown.le_id (h : s.Grown made after) (ha : a ∈ made) : s.nextId ≤ a.id := by
  have hid : a.id ∈ made.map Atom.id := List.mem_map_of_mem ha
  rw [h.ids, List.mem_range'_1] at hid
  exact hid.1

/-- The ids of the new atoms have been handed out since. -/
theorem Grown.id_lt (h : s.Grown made after) (ha : a ∈ made) : a.id < after.nextId := by
  have hid : a.id ∈ made.map Atom.id := List.mem_map_of_mem ha
  rw [h.ids, List.mem_range'_1] at hid
  rw [h.nextId]
  exact hid.2

/-- The new atoms are listed by their ids. -/
theorem Grown.pairwise_made (h : s.Grown made after) : made.Pairwise ById := by
  -- They are the end of the list of all atoms, which is in order.
  have hall := h.sound.pairwise_atoms
  rw [h.atoms] at hall
  exact (List.pairwise_append.mp hall).2.1

theorem Grown.trans (h : s.Grown made mid) (h' : mid.Grown more after) :
    s.Grown (made ++ more) after where
  sound := h'.sound
  limit := h'.limit.trans h.limit
  nextId := by rw [h'.nextId, h.nextId, List.length_append, Nat.add_assoc]
  atoms := by rw [h'.atoms, h.atoms, List.append_assoc]
  ids := by
    rw [List.map_append, h.ids, h'.ids, h.nextId, List.length_append, List.range'_append_1]
  references := by
    intro a ha id hid
    rcases List.mem_append.mp ha with ha | ha
    · exact h.references a ha id hid
    · rcases h'.references a ha id hid with hlt | ⟨b, hb, hid⟩
      · exact .inl hlt
      · rw [h.atoms] at hb
        rcases List.mem_append.mp hb with hb | hb
        · exact .inr ⟨b, hb, hid⟩
        · -- An atom made on the way referenced it, and has a smaller id.
          refine (h.references b hb id hid).imp_left fun hlt => hlt.trans ?_
          exact (h.id_lt hb).trans_le (h'.le_id ha)

/-- A store grows by an atom that references only what the store knows. -/
theorem Sound.grown_withNext (hs : s.Sound) (kind : Kind) (truth : Truth) (shape : Shape)
    (hknown : ∀ id ∈ shape.outgoing, s.Knows id) :
    s.Grown [s.nextAtom kind shape truth] (s.withNext kind shape truth) where
  sound := hs.withNext
  limit := rfl
  nextId := rfl
  atoms := hs.atoms_withNext
  ids := rfl
  references := by
    intro a ha id hid
    rw [List.mem_singleton.mp ha] at hid ⊢
    exact hknown id hid

/-- What resolves goes on to resolve to the same atom. -/
theorem Grown.get? (h : s.Grown made after) (hs : s.Sound) (ha : s.get? id = some a) :
    after.get? id = some a := by
  obtain rfl := hs.keyed ha
  rw [← h.sound.mem_atoms, h.atoms]
  exact List.mem_append_left _ (hs.mem_atoms.mpr ha)

/-- As a store grows its next id does not become smaller. -/
theorem Grown.nextId_le (h : s.Grown made after) : s.nextId ≤ after.nextId := by
  rw [h.nextId]
  exact Nat.le_add_right _ _

/-- What is known stays known as a store grows. -/
theorem Grown.knows (h : s.Grown made after) (hid : s.Knows id) : after.Knows id := by
  refine hid.imp (fun hlt => hlt.trans_le h.nextId_le) ?_
  rintro ⟨a, ha, hid⟩
  exact ⟨a, by rw [h.atoms]; exact List.mem_append_left _ ha, hid⟩

/-! ## Conclusions -/

/-- The ends of an edge are known. -/
theorem knows_of_mem_edges {e : Edge} (he : e ∈ s.edges) : s.Knows e.source ∧ s.Knows e.target := by
  obtain ⟨a, ha, hedge⟩ := mem_edges.mp he
  obtain ⟨-, -, hshape, -, -⟩ := Edge.ofAtom?_eq_some.mp hedge
  have houtgoing : a.outgoing = [e.source, e.target] := by rw [Atom.outgoing, hshape]; rfl
  exact ⟨.inr ⟨a, ha, by simp [houtgoing]⟩, .inr ⟨a, ha, by simp [houtgoing]⟩⟩

end Store

/-- Of the conclusions of a round those that are new are kept, in their order. -/
theorem Conclusion.fresh_sublist (known : Std.TreeSet Statement) (cs : List Conclusion) :
    (fresh known cs).Sublist cs := by
  induction cs generalizing known with
  | nil => exact List.Sublist.slnil
  | cons c cs ih =>
    rw [fresh]
    split
    · exact (ih known).cons c
    · exact (ih _).cons_cons c

/-- A conclusion is drawn from two edges that meet. -/
theorem Store.exists_edges_of_mem_conclusions {s : Store} {target : Option Id} {c : Conclusion}
    (hc : c ∈ s.conclusions target) :
    ∃ e ∈ s.edges, ∃ f ∈ s.edges, e.target = f.source ∧ c = Conclusion.ofEdges e f := by
  have hjoined := (Conclusion.fresh_sublist _ _).subset hc
  simp only [List.mem_flatMap, List.mem_filter, List.mem_map, Edge.getD_bySource, beq_iff_eq]
    at hjoined
  obtain ⟨e, ⟨he, -⟩, f, ⟨⟨hf, hmeets⟩, -⟩, rfl⟩ := hjoined
  exact ⟨e, he, f, hf, hmeets.symm, rfl⟩

/-- The ends of a conclusion are ends of edges, and so they are known. -/
theorem Store.knows_of_mem_conclusions {s : Store} {target : Option Id} {c : Conclusion}
    (hc : c ∈ s.conclusions target) : s.Knows c.statement.source ∧ s.Knows c.statement.target := by
  obtain ⟨e, he, f, hf, -, rfl⟩ := exists_edges_of_mem_conclusions hc
  exact ⟨(knows_of_mem_edges he).1, (knows_of_mem_edges hf).2⟩

/-- Links for conclusions over known ids make a store grow, up to the first that is refused. -/
theorem Growth.grown_ofConclusions {s : Store} (hs : s.Sound) {cs : List Conclusion}
    (hknown : ∀ c ∈ cs, s.Knows c.statement.source ∧ s.Knows c.statement.target) :
    s.Grown (ofConclusions s cs).atoms (ofConclusions s cs).store := by
  induction cs generalizing s with
  | nil => exact .refl hs
  | cons c cs ih =>
    rw [ofConclusions]
    rcases s.derive_cases c.statement.kind (.link [c.statement.source, c.statement.target]) c.truth
      with ⟨limit, -, hderive⟩ | ⟨-, hderive⟩
    · rw [hderive]
      exact .refl hs
    · rw [hderive]
      have hends := hknown c List.mem_cons_self
      have hfirst := hs.grown_withNext c.statement.kind c.truth
        (.link [c.statement.source, c.statement.target]) (by simpa [Shape.outgoing] using hends)
      -- The ends of the conclusions that are left are known in the store that has the first link.
      refine hfirst.trans (ih hfirst.sound fun d hd => ?_)
      exact (hknown d (List.mem_cons_of_mem c hd)).imp hfirst.knows hfirst.knows

/-- What derivations of certain truths keep is kept by the links for conclusions with such truths. -/
theorem Growth.ofConclusions_induction {P : Store → Prop} {Q : Truth → Prop}
    (hnext : ∀ s kind shape truth, Q truth → P s → P (s.withNext kind shape truth)) {s : Store}
    (hs : P s) {cs : List Conclusion} (hcs : ∀ c ∈ cs, Q c.truth) : P (ofConclusions s cs).store := by
  induction cs generalizing s with
  | nil => exact hs
  | cons c cs ih =>
    obtain ⟨hc, hcs⟩ := List.forall_mem_cons.mp hcs
    rw [ofConclusions]
    rcases s.derive_cases c.statement.kind (.link [c.statement.source, c.statement.target]) c.truth
      with ⟨limit, -, hderive⟩ | ⟨-, hderive⟩
    · rw [hderive]
      exact hs
    · rw [hderive]
      exact ih (hnext s _ _ _ hc hs) hcs

/-! ## Rounds of forward chaining -/

namespace Progress

/-- How far a run has gone on when it has made some more atoms without a rule. -/
structure Chained (p : Progress) (made : List Atom) (after : Progress) : Prop where
  created : after.created = p.created ++ made
  grown : p.store.Grown made after.store
  ruleMatches : after.ledger.ruleMatches = p.ledger.ruleMatches

theorem Chained.refl {p : Progress} (hs : p.store.Sound) : p.Chained [] p :=
  ⟨(List.append_nil _).symm, .refl hs, rfl⟩

theorem Chained.trans {p mid after : Progress} {made more : List Atom} (h : p.Chained made mid)
    (h' : mid.Chained more after) : p.Chained (made ++ more) after where
  created := by rw [h'.created, h.created, List.append_assoc]
  grown := h.grown.trans h'.grown
  ruleMatches := h'.ruleMatches.trans h.ruleMatches

/-- Adding the conclusions of a round goes on by the links that are made for them. -/
theorem chained_assert {p : Progress} (hs : p.store.Sound) (target : Option Id) :
    p.Chained (Growth.ofConclusions p.store (p.store.conclusions target)).atoms
      (p.assert (p.store.conclusions target)) where
  created := rfl
  grown := Growth.grown_ofConclusions hs fun _ => Store.knows_of_mem_conclusions
  ruleMatches := rfl

/-- A round that has been begun, with its conclusions added. -/
def afterRound (p : Progress) (target : Option Id) : Progress :=
  p.beginForwardRound.assert (p.store.conclusions target)

/-- A run stops with a round that concludes nothing, or with one that the store does not let it finish,
or goes on after a round. -/
theorem forward_succ_cases (p : Progress) (target : Option Id) :
    (p.store.conclusions target = [] ∧ ∀ n, p.forward target (n + 1) = p.beginForwardRound) ∨
      ((p.afterRound target).failure.isSome ∧
        ∀ n, p.forward target (n + 1) = p.afterRound target) ∨
      (p.store.conclusions target ≠ [] ∧ (p.afterRound target).failure = none ∧
        ∀ n, p.forward target (n + 1) = (p.afterRound target).forward target n) := by
  have hbegun : p.beginForwardRound.store.conclusions target = p.store.conclusions target := rfl
  rw [afterRound]
  cases hcs : p.store.conclusions target with
  | nil => exact .inl ⟨rfl, fun n => by simp only [forward, hbegun, hcs]⟩
  | cons c cs =>
    cases hfailure : (p.beginForwardRound.assert (c :: cs)).failure with
    | some e =>
      refine .inr (.inl ⟨rfl, fun n => ?_⟩)
      simp only [forward, hbegun, hcs, hfailure, Option.isSome_some, if_true]
    | none =>
      refine .inr (.inr ⟨List.cons_ne_nil c cs, rfl, fun n => ?_⟩)
      simp only [forward, hbegun, hcs, hfailure, Option.isSome_none, Bool.false_eq_true, if_false]

/-- A round goes on by the links that are made for its conclusions. -/
theorem chained_afterRound {p : Progress} (hs : p.store.Sound) (target : Option Id) :
    p.Chained (Growth.ofConclusions p.store (p.store.conclusions target)).atoms
      (p.afterRound target) := by
  have hbegun : p.Chained [] p.beginForwardRound := ⟨(List.append_nil _).symm, .refl hs, rfl⟩
  exact hbegun.trans (chained_assert (p := p.beginForwardRound) hs target)

/-- A run of forward chaining goes on by some atoms, in a full store too. -/
theorem exists_chained_forward {p : Progress} (hs : p.store.Sound) (target : Option Id)
    (rounds : Nat) : ∃ made, p.Chained made (p.forward target rounds) := by
  induction rounds generalizing p with
  | zero => exact ⟨[], .refl hs⟩
  | succ rounds ih =>
    have hround := chained_afterRound hs target
    rcases p.forward_succ_cases target with ⟨-, hstop⟩ | ⟨-, hstop⟩ | ⟨-, -, hon⟩
    · rw [hstop]
      exact ⟨[], (List.append_nil _).symm, .refl hs, rfl⟩
    · rw [hstop]
      exact ⟨_, hround⟩
    · rw [hon]
      obtain ⟨made, hrest⟩ := ih hround.grown.sound
      exact ⟨_, hround.trans hrest⟩

/-- What derivations of certain truths keep is kept by forward chaining, if two edges have such a
truth for their deduction. -/
theorem forward_induction {P : Store → Prop} {Q : Truth → Prop}
    (hnext : ∀ s kind shape truth, Q truth → P s → P (s.withNext kind shape truth))
    (hjoined : ∀ s, P s → ∀ e ∈ s.edges, ∀ f ∈ s.edges, Q (e.truth.deduction f.truth))
    {p : Progress} (hp : P p.store) (target : Option Id) (rounds : Nat) :
    P (p.forward target rounds).store := by
  induction rounds generalizing p with
  | zero => exact hp
  | succ rounds ih =>
    -- Each conclusion of a round is the deduction of two edges of the store as it is then.
    have hround : P (p.afterRound target).store := by
      refine Growth.ofConclusions_induction hnext hp fun c hc => ?_
      obtain ⟨e, he, f, hf, -, rfl⟩ := Store.exists_edges_of_mem_conclusions hc
      exact hjoined _ hp e he f hf
    rcases p.forward_succ_cases target with ⟨-, hstop⟩ | ⟨-, hstop⟩ | ⟨-, -, hon⟩
    · rw [hstop]
      exact hp
    · rw [hstop]
      exact hround
    · rw [hon]
      exact ih hround

end Progress

end BeliefGraph
