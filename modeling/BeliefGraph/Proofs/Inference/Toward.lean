import BeliefGraph.Proofs.Inference.DeductionTree
import BeliefGraph.Proofs.Inference.Reachability

/-!
# Forward chaining toward a target

With a target a round takes only those pairs whose first edge is the target or has it at one of its
ends. What it makes starts where the first edge does, so it may or may not be taken as a first edge in
the next round. This module says how such a run ends in a store without a limit.

Each round but the last makes a link, and the links of a run state different things, each of them what
two of the first edges make (`Progress.length_le_of_chained`). So there are no more rounds than links
but one, and no more links than pairs of edges. What a link states a walk makes, and a run without a
target makes a link for each walk of that length; so nothing is made that it would not make.

A run that has settled is done with the target, and not with the rest. What can be joined to an edge at
the target has been joined (`Store.join_of_conclusions`), so along a chain from such an edge there is a
link to each id (`Store.states_along_chain`).
-/

namespace BeliefGraph

open Relation

variable {p : Progress} {target : Option Id}

/-! ## What a run makes -/

/-- A walk makes what its first and its last statement make. -/
theorem Walk.exists_join {T : Statement → Prop} {t : Statement} {path : List Statement}
    (h : Walk T t path) : ∃ u v, T u ∧ T v ∧ t = u.join v := by
  induction h with
  | @single t ht => exact ⟨t, t, ht, ht, rfl⟩
  | @cons t _ _ ht _ _ ih =>
    obtain ⟨-, v, -, hv, rfl⟩ := ih
    exact ⟨t, v, ht, hv, rfl⟩

namespace Progress

/-- What a link of a run states a walk makes, along what was stated before the run. -/
theorem exists_walk_of_chained (hs : p.store.Sound) {rounds : Nat} {made : List Atom}
    (h : p.Chained made (p.forward target rounds)) {a : Atom} (ha : a ∈ made) :
    ∃ t path, a.triple = t.triple ∧ Walk p.store.States t path ∧ path.length ≤ 2 ^ rounds := by
  obtain ⟨all, hall, htraces⟩ := exists_tracedTo_forward hs p.store.traces_self target rounds
  obtain rfl : made = all := List.append_cancel_left (h.created.symm.trans hall.created)
  obtain ⟨r, tree, t, -, hle, -, htraced⟩ := htraces a ha
  refine ⟨t, tree.leaves.map Edge.statement, ?_, htraced.explains.walk, ?_⟩
  · rw [Atom.triple, Atom.outgoing, htraced.kind, htraced.shape]
    rfl
  · rw [List.length_map]
    have hsize := htraced.size
    rw [Nat.one_mul] at hsize
    exact hsize.trans (Nat.pow_le_pow_right Nat.two_pos hle)

/-- The links of a run state different things, each of them what two of the first edges make. -/
theorem length_le_of_chained (hs : p.store.Open) (hok : p.failure = none) {rounds : Nat}
    {made : List Atom} (h : p.Chained made (p.forward target rounds)) :
    made.length ≤ p.store.edges.length ^ 2 := by
  obtain ⟨last, hrun, -, hcreated, -⟩ := Store.exists_pairRun hs hok target rounds
  obtain rfl : made = last.made := List.append_cancel_left (h.created.symm.trans hcreated)
  -- There is one statement for each pair of edges, and the links of the run state some of these.
  let joins : List (Kind × List Id) := (p.store.edges ×ˢ p.store.edges).map fun pair =>
    (pair.1.statement.join pair.2.statement).triple
  have hsub : last.made.map Atom.triple ⊆ joins := by
    intro u hu
    obtain ⟨a, ha, rfl⟩ := List.mem_map.mp hu
    obtain ⟨t, path, htriple, hwalk, -⟩ := exists_walk_of_chained hs.sound h ha
    obtain ⟨v, w, hv, hw, rfl⟩ := hwalk.exists_join
    obtain ⟨e, he, rfl⟩ := Store.states_iff_edge.mp hv
    obtain ⟨f, hf, rfl⟩ := Store.states_iff_edge.mp hw
    exact List.mem_map.mpr ⟨(e, f), List.mem_product.mpr ⟨he, hf⟩, htriple.symm⟩
  have hlength := (hrun.nodup.subperm hsub).length_le
  rwa [List.length_map, List.length_map, List.length_product, ← Nat.pow_two] at hlength

/-- What a run toward a target makes, a run without one makes too. -/
theorem exists_untargeted_of_chained (hs : p.store.Open) (hok : p.failure = none) {rounds : Nat}
    {made all : List Atom} (h : p.Chained made (p.forward target rounds))
    (h' : p.Chained all (p.forward none rounds)) {a : Atom} (ha : a ∈ made) :
    ∃ b ∈ all, b.triple = a.triple := by
  obtain ⟨last, hrun, -, hcreated, -⟩ := Store.exists_pairRun hs hok target rounds
  obtain rfl : made = last.made := List.append_cancel_left (h.created.symm.trans hcreated)
  obtain ⟨t, path, htriple, hwalk, hlength⟩ := exists_walk_of_chained hs.sound h ha
  obtain ⟨-, b, hb, hkind, hshape⟩ := ((forward_states hs hok rounds).2 t).mpr ⟨path, hwalk, hlength⟩
  have hsame : b.triple = a.triple := by
    rw [htriple, Atom.triple, Atom.outgoing, hkind, hshape]
    rfl
  rw [h'.grown.atoms] at hb
  -- No atom that was there before states it.
  refine ⟨b, (List.mem_append.mp hb).resolve_left fun hold => ?_, hsame⟩
  exact hrun.new a ha (hsame ▸ List.mem_map_of_mem hold)

end Progress

/-! ## Around the target -/

namespace Store

variable {s : Store} {t x y : Id} {u v : Statement}

/-- From the target there is a link to whatever a chain leads to. -/
theorem leads_of_chain (hs : s.Sound) (h : s.conclusions (some t) = [])
    (hchain : TransGen s.Leads t x) : s.Leads t x := by
  induction hchain with
  | single hleads => exact hleads
  | tail _ hleads ih =>
    obtain ⟨u, hu, hsource, htarget⟩ := ih
    obtain ⟨v, hv, hsource', htarget'⟩ := hleads
    have hat : ∀ t' ∈ some t, u.source = t' ∨ u.target = t' := by simp [hsource]
    have hjoin := join_of_conclusions hs h hu hat hv (htarget.trans hsource'.symm)
    exact ⟨u.join v, hjoin, hsource, htarget'⟩

/-- From an edge at the target there is a link to whatever a chain leads to, of the kind of the edge. -/
theorem states_along_chain (hs : s.Sound) (h : s.conclusions (some t) = []) (hu : s.States u)
    (hat : u.source = t ∨ u.target = t) (hchain : TransGen s.Leads u.target x) :
    s.States ⟨u.kind, u.source, x⟩ := by
  have hat' : ∀ t' ∈ some t, u.source = t' ∨ u.target = t' := by simpa using hat
  rcases hat with hsource | htarget
  · -- The links along the chain are joined to the edge one after the other; each joins at the target.
    induction hchain with
    | single hleads =>
      obtain ⟨v, hv, hmeets, rfl⟩ := hleads
      exact join_of_conclusions hs h hu hat' hv hmeets.symm
    | @tail y _ _ hleads ih =>
      obtain ⟨v, hv, hmeets, rfl⟩ := hleads
      have hlast : ∀ t' ∈ some t, u.source = t' ∨ y = t' := by simp [hsource]
      exact join_of_conclusions (u := ⟨u.kind, u.source, y⟩) hs h ih hlast hv hmeets.symm
  · -- The chain starts at the target, so it comes to one link.
    rw [htarget] at hchain
    obtain ⟨v, hv, hmeets, rfl⟩ := leads_of_chain hs h hchain
    exact join_of_conclusions hs h hu hat' hv (htarget.trans hmeets.symm)

end Store

/-! ## Runs toward a target -/

namespace Space

/-- Forward chaining toward a target in a store without a limit begins at most one round more than it makes
links, and it makes no more than there are pairs of edges; with more rounds than that it settles. What its
links state a run without a target makes too, in as many rounds. Once it has settled a second run, of any
number of rounds, makes nothing; and for each edge that starts or ends at the target and each chain from
the end of this edge there is a link of its kind from its start to the end of the chain. -/
theorem forward_toward (space : Space) (t : Id) (rounds : Nat) (hs : space.store.Sound)
    (hlimit : space.store.limit = none) :
    ∃ made, (space.forward (some t) rounds).1 = .ok made ∧
      (space.forward (some t) rounds).2.store.atoms = space.store.atoms ++ made ∧
      (space.forward (some t) rounds).2.reasoner.ledger.forwardRounds
        ≤ space.reasoner.ledger.forwardRounds + made.length + 1 ∧
      made.length ≤ space.store.edges.length ^ 2 ∧
      (made.length < rounds → space.Settles (some t) rounds) ∧
      (∃ all, (space.forward none rounds).1 = .ok all ∧
        ∀ a ∈ made, ∃ b ∈ all, b.triple = a.triple) ∧
      (space.Settles (some t) rounds →
        (∀ again,
          ((space.forward (some t) rounds).2.forward (some t) again).1 = .ok [] ∧
          ((space.forward (some t) rounds).2.forward (some t) again).2.store
            = (space.forward (some t) rounds).2.store) ∧
        ∀ u x, (space.forward (some t) rounds).2.store.States u →
          u.source = t ∨ u.target = t →
          TransGen (space.forward (some t) rounds).2.store.Leads u.target x →
          (space.forward (some t) rounds).2.store.States ⟨u.kind, u.source, x⟩) := by
  have hopen : space.startRun.store.Open := ⟨hs, hlimit⟩
  obtain ⟨made, hchained, -, hrounds, hsettles⟩ :=
    Progress.exists_made_of_open hopen rfl (some t) rounds
  obtain ⟨all, hall, -, -, -⟩ := Progress.exists_made_of_open hopen rfl none rounds
  refine ⟨made, ?_, hchained.grown.atoms, hrounds,
    Progress.length_le_of_chained hopen rfl hchained, fun hlt => (settles_iff hopen).mpr (hsettles hlt),
    ⟨all, ?_, fun a ha => Progress.exists_untargeted_of_chained hopen rfl hchained hall ha⟩,
    fun hsettled => ⟨fun again => ?_, fun u x hu hat hchain => ?_⟩⟩
  · exact (forward_eq_ok hopen (some t) rounds).trans (congrArg Except.ok hchained.created)
  · exact (forward_eq_ok hopen none rounds).trans (congrArg Except.ok hall.created)
  · have hnone := hsettled.conclusions hopen
    obtain ⟨hstore, hcreated, hunfailed⟩ := Progress.forward_of_conclusions
      (p := (space.forward (some t) rounds).2.startRun) hnone again
    refine ⟨?_, hstore⟩
    rw [forward, finishRun, Progress.result, hunfailed, hcreated]
    rfl
  · have hnone := hsettled.conclusions hopen
    exact Store.states_along_chain hchained.grown.sound hnone hu hat hchain

/-- Two rounds go round the circle from the second node, and the third makes nothing. The links from the
third node to the second and to itself, which a run without a target makes too, are not made. -/
theorem forward_toward_threeInACircle :
    threeInACircle.store.Sound ∧ threeInACircle.store.limit = none ∧
      threeInACircle.Settles (some 2) 3 ∧
      ∃ made, (threeInACircle.forward (some 2) 3).1 = .ok made ∧
        made.map Atom.triple
          = [(.inheritance, [1, 3]), (.implication, [2, 1]), (.inheritance, [1, 1]),
            (.implication, [2, 2])] ∧
        ((threeInACircle.forward (some 2) 3).2.forward (some 2) 1).1 = .ok [] ∧
        (threeInACircle.forward (some 2) 3).2.store.States ⟨.inheritance, 1, 1⟩ := by
  have hs : threeInACircle.store.Sound := Store.Reachable.sound ⟨none, _, rfl⟩
  have hsettles : threeInACircle.Settles (some 2) 3 := ⟨2, by decide, rfl⟩
  obtain ⟨made, hmade, hatoms, -, -, -, -, hsettled⟩ := forward_toward threeInACircle 2 3 hs rfl
  obtain ⟨hagain, haround⟩ := hsettled hsettles
  have htriples : (threeInACircle.forward (some 2) 3).1.map (List.map Atom.triple)
      = .ok [(.inheritance, [1, 3]), (.implication, [2, 1]), (.inheritance, [1, 1]),
        (.implication, [2, 2])] := rfl
  rw [hmade] at htriples
  refine ⟨hs, rfl, hsettles, made, hmade, Except.ok.inj htriples, (hagain 1).1, ?_⟩
  -- The first link ends at the target, and from there the circle leads back to where it starts.
  have hstated : ∀ {u}, threeInACircle.store.States u →
      (threeInACircle.forward (some 2) 3).2.store.States u := by
    rintro u ⟨hkind, a, ha, hfields⟩
    exact ⟨hkind, a, by rw [hatoms]; exact List.mem_append_left _ ha, hfields⟩
  have hedges : ∀ e ∈ threeInACircle.store.edges, threeInACircle.store.States e.statement :=
    fun e he => Store.states_iff_edge.mpr ⟨e, he, rfl⟩
  have hfirst : threeInACircle.store.States ⟨.inheritance, 1, 2⟩ := hedges ⟨4, _, _⟩ (.head _)
  have hsecond : threeInACircle.store.States ⟨.implication, 2, 3⟩ := hedges ⟨5, _, _⟩ (.tail _ (.head _))
  have hthird : threeInACircle.store.States ⟨.inheritance, 3, 1⟩ :=
    hedges ⟨6, _, _⟩ (.tail _ (.tail _ (.head _)))
  refine haround ⟨.inheritance, 1, 2⟩ 1 (hstated hfirst) (.inr rfl) ?_
  exact .head ⟨_, hstated hsecond, rfl, rfl⟩ (.single ⟨_, hstated hthird, rfl, rfl⟩)

end Space

end BeliefGraph
