import BeliefGraph.Proofs.Inference.DoubleLoop

/-!
# Deduction trees

Every link that forward chaining makes goes back to links that were there before. Its truth has been
computed from two edges, which were there or had been made by an earlier round, and so on: this is a
binary tree. `DeductionTree.Explains` says what such a tree shows. Its leaves, from left to right, are
edges of the store that the run began with; they make a walk, and the walk makes the statement of the
link; and deduction at each inner node gives its truth.

An edge of the store is a tree of one leaf. A round joins two edges, and with them their trees
(`Explains.join`), so the edges of a store after some rounds have trees whose size at most doubles with
each round (`Store.Traces`). `Space.forward_trees` says this of whole runs, also of those that a full store
stops.
-/

namespace BeliefGraph

/-- How the truth of a link is computed from the truths of edges. -/
inductive DeductionTree
  | leaf (e : Edge)
  | join (first second : DeductionTree)

namespace DeductionTree

/-- The edges that a tree starts from, from left to right. -/
def leaves : DeductionTree → List Edge
  | leaf e => [e]
  | join first second => first.leaves ++ second.leaves

/-- Deduction at each inner node. -/
def truth : DeductionTree → Truth
  | leaf e => e.truth
  | join first second => first.truth.deduction second.truth

/-- A tree shows why a store makes a statement with a truth. -/
structure Explains (tree : DeductionTree) (s : Store) (t : Statement) (truth : Truth) : Prop where
  leaves : ∀ e ∈ tree.leaves, e ∈ s.edges
  /-- The leaves lead one to the next, and what they make in a row is the statement. -/
  walk : Walk s.States t (tree.leaves.map Edge.statement)
  truth : tree.truth = truth

variable {s : Store} {first second : DeductionTree} {t u : Statement} {a b : Truth}

/-- An edge alone explains what it states, with its own truth. -/
theorem explains_leaf {e : Edge} (he : e ∈ s.edges) : (leaf e).Explains s e.statement e.truth where
  leaves := List.forall_mem_singleton.mpr he
  walk := .single (Store.states_iff_edge.mpr ⟨e, he, rfl⟩)
  truth := rfl

/-- Two trees that meet explain together what their statements make, with the truth of a deduction. -/
theorem Explains.join (h : first.Explains s t a) (h' : second.Explains s u b)
    (meets : t.target = u.source) : (first.join second).Explains s (t.join u) (a.deduction b) where
  leaves := List.forall_mem_append.mpr ⟨h.leaves, h'.leaves⟩
  walk := by
    rw [DeductionTree.leaves, List.map_append]
    exact h.walk.append h'.walk meets
  truth := by rw [DeductionTree.truth, h.truth, h'.truth]

/-- Counts add up along the leaves, and saturate once; how the tree branches makes no difference. -/
theorem toNat_count_truth (tree : DeductionTree) :
    tree.truth.count.toNat
      = min (UInt64.size - 1) (tree.leaves.map fun e => e.truth.count.toNat).sum := by
  induction tree with
  | leaf e =>
    have hlt := e.truth.count.toNat_lt_size
    rw [leaves, truth, List.map_singleton, List.sum_singleton]
    omega
  | join first second ih ih' =>
    have hcount : (join first second).truth.count.toNat
        = min (first.truth.count.toNat + second.truth.count.toNat) (UInt64.size - 1) :=
      Truth.toNat_addCounts _ _
    rw [hcount, ih, ih', leaves, List.map_append, List.sum_append]
    omega

end DeductionTree

/-! ## One round -/

namespace Store

/-- The edges of a store go back to trees of a bounded size over the edges of an earlier one. -/
def Traces (base : Store) (size : Nat) (s : Store) : Prop :=
  ∀ e ∈ s.edges, ∃ tree : DeductionTree,
    tree.Explains base e.statement e.truth ∧ tree.leaves.length ≤ size

variable {base s : Store} {size : Nat} {target : Option Id} {c : Conclusion}

/-- Each edge of a store is traced to itself. -/
theorem traces_self (s : Store) : s.Traces 1 s :=
  fun e he => ⟨.leaf e, DeductionTree.explains_leaf he, Nat.le_refl 1⟩

/-- A conclusion joins the trees of the edges that it is drawn from. -/
theorem Traces.conclusion (h : base.Traces size s) (hc : c ∈ s.conclusions target) :
    ∃ tree : DeductionTree,
      tree.Explains base c.statement c.truth ∧ tree.leaves.length ≤ 2 * size := by
  obtain ⟨e, he, f, hf, hmeets, rfl⟩ := exists_edges_of_mem_conclusions hc
  obtain ⟨first, hfirst, hsize⟩ := h e he
  obtain ⟨second, hsecond, hsize'⟩ := h f hf
  refine ⟨first.join second, hfirst.join hsecond hmeets, ?_⟩
  rw [DeductionTree.leaves, List.length_append]
  omega

end Store

/-- What is said of a link that has a tree of a bounded size. -/
structure Atom.TracedTo (a : Atom) (base : Store) (size : Nat) (tree : DeductionTree)
    (t : Statement) : Prop where
  kind : a.kind = t.kind
  shape : a.shape = .link [t.source, t.target]
  explains : tree.Explains base t a.truth
  size : tree.leaves.length ≤ size

namespace Atom.TracedTo

variable {a : Atom} {base : Store} {size : Nat} {tree : DeductionTree} {t : Statement} {e : Edge}

/-- The edge that a link is has the tree of the link. -/
theorem edge (h : a.TracedTo base size tree t) (he : Edge.ofAtom? a = some e) :
    tree.Explains base e.statement e.truth := by
  obtain ⟨-, hkind, hshape, -, htruth⟩ := Edge.ofAtom?_eq_some.mp he
  obtain ⟨link, ⟨kind, source, target⟩, truth⟩ := e
  have hends := hshape.symm.trans h.shape
  obtain rfl : a.kind = kind := hkind
  obtain rfl : a.truth = truth := htruth
  simp only [Shape.link.injEq, List.cons.injEq, and_true] at hends
  obtain ⟨rfl, rfl⟩ := hends
  have hexplains := h.explains
  rwa [show t = ⟨a.kind, t.source, t.target⟩ by rw [h.kind]] at hexplains

end Atom.TracedTo

namespace Progress

variable {base : Store} {size : Nat} {p : Progress} {target : Option Id} {a : Atom}

/-- A link that a round makes has a tree of at most twice the size. -/
theorem exists_tracedTo_of_mem_round (h : base.Traces size p.store)
    (ha : a ∈ (Growth.ofConclusions p.store (p.store.conclusions target)).atoms) :
    ∃ tree t, a.TracedTo base (2 * size) tree t := by
  obtain ⟨c, hc, hdescribes⟩ := Growth.exists_describes ha
  obtain ⟨tree, hexplains, hsize⟩ := h.conclusion hc
  rw [← hdescribes.truth] at hexplains
  exact ⟨tree, c.statement, hdescribes.kind, hdescribes.shape, hexplains, hsize⟩

/-- A round at most doubles the size of the trees. -/
theorem traces_afterRound (hs : p.store.Sound) (h : base.Traces size p.store) :
    base.Traces (2 * size) (p.afterRound target).store := by
  intro e he
  obtain ⟨a, ha, hedge⟩ := Store.mem_edges.mp he
  rw [(chained_afterRound hs target).grown.atoms] at ha
  rcases List.mem_append.mp ha with ha | ha
  · obtain ⟨tree, hexplains, hsize⟩ := h e (Store.mem_edges.mpr ⟨a, ha, hedge⟩)
    exact ⟨tree, hexplains, by omega⟩
  · obtain ⟨tree, t, htraced⟩ := exists_tracedTo_of_mem_round h ha
    exact ⟨tree, htraced.edge hedge, htraced.size⟩

/-! ## Runs -/

/-- What the first round of a run makes is there after any number of rounds but none. -/
theorem mem_forward_iff_of_mem_round (hs : p.store.Sound)
    (ha : a ∈ (Growth.ofConclusions p.store (p.store.conclusions target)).atoms)
    (hmore : ∀ n, ∃ more, (p.afterRound target).Chained more (p.forward target (n + 1))) (q : Nat) :
    a ∈ (p.forward target q).store.atoms ↔ 1 ≤ q := by
  have hround := chained_afterRound hs target
  cases q with
  | zero =>
    refine iff_of_false (fun hold => ?_) (Nat.not_succ_le_zero 0)
    exact (hround.grown.le_id ha).not_gt (hs.id_lt hold)
  | succ n =>
    obtain ⟨more, hchained⟩ := hmore n
    refine iff_of_true ?_ (Nat.succ_pos n)
    rw [(hround.trans hchained).grown.atoms]
    exact List.mem_append_right _ (List.mem_append_left _ ha)

/-- Each link that a run makes has a tree, of a size that doubles with the rounds up to the one that
makes it. -/
theorem exists_tracedTo_forward (hs : p.store.Sound) (h : base.Traces size p.store)
    (target : Option Id) (rounds : Nat) :
    ∃ made, p.Chained made (p.forward target rounds) ∧ ∀ a ∈ made, ∃ r tree t,
      1 ≤ r ∧ r ≤ rounds ∧ (∀ q, a ∈ (p.forward target q).store.atoms ↔ r ≤ q) ∧
        a.TracedTo base (size * 2 ^ r) tree t := by
  -- The induction is on the rounds: the trees of the store that a round leaves are twice as large.
  induction rounds generalizing p size with
  | zero => exact ⟨[], .refl hs, by simp⟩
  | succ rounds ih =>
    have hround := chained_afterRound hs target
    have hfirst : ∀ a ∈ (Growth.ofConclusions p.store (p.store.conclusions target)).atoms,
        ∃ tree t, a.TracedTo base (size * 2 ^ 1) tree t := by
      intro a ha
      rw [pow_one, Nat.mul_comm]
      exact exists_tracedTo_of_mem_round h ha
    rcases p.forward_succ_cases target with ⟨-, hstop⟩ | ⟨-, hstop⟩ | ⟨-, -, hon⟩
    · rw [hstop]
      exact ⟨[], ⟨(List.append_nil _).symm, .refl hs, rfl⟩, by simp⟩
    · rw [hstop]
      refine ⟨_, hround, fun a ha => ?_⟩
      obtain ⟨tree, t, htraced⟩ := hfirst a ha
      refine ⟨1, tree, t, Nat.le_refl 1, Nat.succ_pos rounds, ?_, htraced⟩
      exact mem_forward_iff_of_mem_round hs ha fun n => by
        rw [hstop]
        exact ⟨[], .refl hround.grown.sound⟩
    · rw [hon]
      obtain ⟨made, hmade, htraces⟩ := ih hround.grown.sound (traces_afterRound hs h)
      refine ⟨_, hround.trans hmade, fun a ha => ?_⟩
      rcases List.mem_append.mp ha with ha | ha
      · obtain ⟨tree, t, htraced⟩ := hfirst a ha
        refine ⟨1, tree, t, Nat.le_refl 1, Nat.succ_pos rounds, ?_, htraced⟩
        exact mem_forward_iff_of_mem_round hs ha fun n => by
          rw [hon]
          exact exists_chained_forward hround.grown.sound target n
      · obtain ⟨r, tree, t, hpos, hle, hthere, htraced⟩ := htraces a ha
        refine ⟨r + 1, tree, t, Nat.succ_pos r, Nat.succ_le_succ hle, fun q => ?_, ?_⟩
        · cases q with
          | zero =>
            refine iff_of_false (fun hold => ?_) (Nat.not_succ_le_zero r)
            refine (hthere 0).not.mpr (Nat.not_le.mpr hpos) ?_
            rw [forward, hround.grown.atoms]
            exact List.mem_append_left _ hold
          | succ n => rw [hon, hthere, Nat.succ_le_succ_iff]
        · rwa [pow_succ', ← Nat.mul_assoc, Nat.mul_comm size 2]

end Progress

/-! ## What a run makes -/

namespace Space

/-- An atom is there after so many rounds of forward chaining, and not after fewer. -/
def MadeInRound (space : Space) (target : Option Id) (round : Nat) (a : Atom) : Prop :=
  1 ≤ round ∧ ∀ rounds, a ∈ (space.forward target rounds).2.store.atoms ↔ round ≤ rounds

/-- Each link that forward chaining makes has a deduction tree, whether the run ends by itself or by a full
store. Its leaves are edges that were there before the run; from left to right they make a walk, and what
the walk makes is the statement of the link. Its truth is that of the tree, so its count is the sum of the
counts of the leaves, or the largest count, and no other tree with these leaves has another one. A link
made in a round has at most two to the power of the round leaves. -/
theorem forward_trees (space : Space) (target : Option Id) (rounds : Nat)
    (hs : space.store.Sound) :
    ∃ made, (space.forward target rounds).2.store.atoms = space.store.atoms ++ made ∧
      (∀ results, (space.forward target rounds).1 = .ok results → results = made) ∧
      ∀ a ∈ made, ∃ (t : Statement) (tree : DeductionTree) (round : Nat),
        a.kind = t.kind ∧ a.shape = .link [t.source, t.target] ∧
        tree.Explains space.store t a.truth ∧
        a.truth.count.toNat
          = min (UInt64.size - 1) (tree.leaves.map fun e => e.truth.count.toNat).sum ∧
        (∀ other : DeductionTree, other.leaves = tree.leaves →
          other.truth.count = a.truth.count) ∧
        round ≤ rounds ∧ space.MadeInRound target round a ∧ tree.leaves.length ≤ 2 ^ round := by
  obtain ⟨made, hchained, htraces⟩ := Progress.exists_tracedTo_forward (p := space.startRun) hs
    space.store.traces_self target rounds
  refine ⟨made, hchained.grown.atoms, fun results hresults => ?_, fun a ha => ?_⟩
  · rw [forward, finishRun, Progress.result] at hresults
    split at hresults
    · rw [← Except.ok.inj hresults, hchained.created]
      rfl
    · cases hresults
  · obtain ⟨round, tree, t, hpos, hle, hthere, htraced⟩ := htraces a ha
    have htruth := htraced.explains.truth
    refine ⟨t, tree, round, htraced.kind, htraced.shape, htraced.explains, ?_, fun other hleaves => ?_,
      hle, ⟨hpos, hthere⟩, ?_⟩
    · rw [← htruth, tree.toNat_count_truth]
    · -- The count is a sum over the leaves, so trees with the same leaves have the same count.
      rw [← htruth, ← UInt64.toNat_inj, other.toNat_count_truth, tree.toNat_count_truth, hleaves]
    · rw [← Nat.one_mul (2 ^ round)]
      exact htraced.size

/-- Two rounds go round the circle: the links of the second round lead from each node to itself. -/
theorem forward_trees_threeInACircle :
    threeInACircle.store.Sound ∧ ∃ made, (threeInACircle.forward none 2).1 = .ok made ∧
      made.map Atom.triple
        = [(.inheritance, [1, 3]), (.implication, [2, 1]), (.inheritance, [3, 2]),
          (.inheritance, [1, 1]), (.implication, [2, 2]), (.inheritance, [3, 3])] ∧
      ∀ a ∈ made, ∃ (t : Statement) (tree : DeductionTree), a.shape = .link [t.source, t.target] ∧
        tree.Explains threeInACircle.store t a.truth ∧ tree.leaves.length ≤ 4 := by
  have hs : threeInACircle.store.Sound := Store.Reachable.sound ⟨none, _, rfl⟩
  obtain ⟨made, -, hresults, htrees⟩ := forward_trees threeInACircle none 2 hs
  obtain ⟨results, hok⟩ : ∃ results, (threeInACircle.forward none 2).1 = .ok results := ⟨_, rfl⟩
  obtain rfl := hresults results hok
  have htriples : (threeInACircle.forward none 2).1.map (List.map Atom.triple)
      = .ok [(.inheritance, [1, 3]), (.implication, [2, 1]), (.inheritance, [3, 2]),
        (.inheritance, [1, 1]), (.implication, [2, 2]), (.inheritance, [3, 3])] := rfl
  rw [hok] at htriples
  refine ⟨hs, results, hok, Except.ok.inj htriples, fun a ha => ?_⟩
  obtain ⟨t, tree, round, -, hshape, hexplains, -, -, hle, -, hsize⟩ := htrees a ha
  exact ⟨t, tree, hshape, hexplains, hsize.trans (Nat.pow_le_pow_right Nat.two_pos hle)⟩

end Space

end BeliefGraph
