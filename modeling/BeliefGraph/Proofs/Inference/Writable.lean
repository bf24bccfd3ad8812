import BeliefGraph.Proofs.Inference.Guided
import BeliefGraph.Proofs.Snapshot.Refusal

/-!
# Inference and cycles of references

What inference makes references what was there before it, so it closes no cycle by itself. A link may
have been made before the atom that it references, though. When inference gives the id that such a link
waits for to a link of its own, the old link references the new one, and if references lead back from
there the store can no longer be written (`Space.infer_closes_cycle`).

There is no other way (`Space.write_infers`). Every cycle goes through a link that inference made under
an id that was already referenced: without such links references lead from old links to old links, and
from what was made to old links or to what was made earlier.
-/

namespace BeliefGraph

open Relation Snapshot

namespace Store

variable {s after : Store} {made : List Atom} {a b : Atom}

/-- The links that can be on a cycle. -/
abbrev links (s : Store) : List Atom := s.query Atom.isLink

/-- An atom of a later time whose id was referenced before it was handed out. -/
def Awaited (s : Store) (a : Atom) : Prop :=
  s.nextId ≤ a.id ∧ ∃ b ∈ s.atoms, a.id ∈ b.outgoing

/-- A link of a later time references a link that was not awaited. -/
def RefersToUnawaited (s after : Store) (a b : Atom) : Prop :=
  Refers after.links a b ∧ ¬ s.Awaited b

/-- From an old link, references to what was not awaited lead to old links. -/
theorem Grown.refers_of_old (h : s.Grown made after) (href : s.RefersToUnawaited after a b)
    (ha : a ∈ s.atoms) : Refers s.links a b := by
  obtain ⟨⟨halink, hblink, hid⟩, hnot⟩ := href
  obtain ⟨hb, hblink⟩ := List.mem_filter.mp hblink
  rw [h.atoms, List.mem_append] at hb
  have hb := hb.resolve_right fun hb => hnot ⟨h.le_id hb, a, ha, hid⟩
  have halink := (List.mem_filter.mp halink).2
  exact ⟨List.mem_filter.mpr ⟨ha, halink⟩, List.mem_filter.mpr ⟨hb, hblink⟩, hid⟩

/-- From a new link they lead to old links or to what was made earlier. -/
theorem Grown.refers_of_made (h : s.Grown made after) (href : s.RefersToUnawaited after a b)
    (ha : a ∈ made) : b ∈ s.atoms ∨ (b ∈ made ∧ b.id < a.id) := by
  obtain ⟨⟨-, hblink, hid⟩, hnot⟩ := href
  have hb := (List.mem_filter.mp hblink).1
  rw [h.atoms, List.mem_append] at hb
  refine hb.imp_right fun hb => ⟨hb, ?_⟩
  refine (h.references a ha b.id hid).resolve_right ?_
  rintro ⟨c, hc, hid⟩
  exact hnot ⟨h.le_id hb, c, hc, hid⟩

/-- A chain of references from an old link stays among the old ones if it meets nothing awaited. -/
theorem Grown.chain_of_old (h : s.Grown made after) (hab : TransGen (s.RefersToUnawaited after) a b)
    (ha : a ∈ s.atoms) : b ∈ s.atoms ∧ TransGen (Refers s.links) a b := by
  induction hab with
  | single hstep =>
    have hstep := h.refers_of_old hstep ha
    exact ⟨(List.mem_filter.mp hstep.2.1).1, .single hstep⟩
  | tail _ hstep ih =>
    have hstep := h.refers_of_old hstep ih.1
    exact ⟨(List.mem_filter.mp hstep.2.1).1, ih.2.tail hstep⟩

/-- A chain of references from a new link goes down in ids until it meets an old link. -/
theorem Grown.chain_of_made (h : s.Grown made after) (hab : TransGen (s.RefersToUnawaited after) a b)
    (ha : a ∈ made) : b ∈ s.atoms ∨ (b ∈ made ∧ b.id < a.id) := by
  induction hab with
  | single hstep => exact h.refers_of_made hstep ha
  | tail _ hstep ih =>
    rcases ih with hold | ⟨hmade, hlt⟩
    · exact .inl (h.chain_of_old (.single hstep) hold).1
    · refine (h.refers_of_made hstep hmade).imp_right ?_
      exact And.imp_right fun hlt' => hlt'.trans hlt

/-- Growth closes no cycle but through an awaited link. -/
theorem Grown.not_cycle (h : s.Grown made after) (hs : s.Sound) (hacyclic : ¬ Cyclic s.links)
    (a : Atom) : ¬ TransGen (s.RefersToUnawaited after) a a := by
  intro hcycle
  obtain ⟨b, hstep, -⟩ := TransGen.head'_iff.mp hcycle
  have ha := (List.mem_filter.mp hstep.1.1).1
  rw [h.atoms, List.mem_append] at ha
  rcases ha with hold | hmade
  · exact hacyclic ⟨a, (h.chain_of_old hcycle hold).2⟩
  · rcases h.chain_of_made hcycle hmade with hold | ⟨-, hlt⟩
    · exact absurd (h.le_id hmade) (Nat.not_le.mpr (hs.id_lt hold))
    · exact lt_irrefl _ hlt

end Store

namespace Space

/-- Inference: a run of forward chaining, or one of the rule-guided chainer. -/
inductive Infers (space : Space) : Space → Prop
  | forward (target : Option Id) (rounds : Nat) : Infers space (space.forward target rounds).2
  | chain (target : Option Id) : Infers space (space.chain target).2

variable {space after : Space}

/-- What a run of inference leaves is grown from what it started with. -/
theorem Infers.exists_grown (h : space.Infers after) (hs : space.store.Sound) :
    ∃ made, space.store.Grown made after.store := by
  cases h with
  | forward target rounds => exact exists_grown_forward hs target rounds
  | chain target => exact exists_grown_chain hs target

/-- A sound store is written unless its links reference each other in a cycle. -/
theorem write_ne_cyclicReference_iff {s : Store} (hs : s.Sound) {spaceId : SpaceId}
    {time : Timestamp} :
    (∀ id, write s spaceId time ≠ .error (.cyclicReference id)) ↔ ¬ Cyclic s.links := by
  rw [← exists_creationOrder_error_iff (query_link_ids hs), not_exists]
  simp only [ne_eq, write_eq_cyclicReference_iff]

/-- After inference in a store that is not refused for a cycle, no chain of references comes around but
through a link that was made under an id that was referenced before. So if no id that was referenced
before it was handed out has got an atom, the store is still not refused for a cycle. -/
theorem write_infers (hs : space.store.Sound) {spaceId : SpaceId} {time : Timestamp}
    (hwrite : ∀ id, write space.store spaceId time ≠ .error (.cyclicReference id))
    (h : space.Infers after) :
    (∀ a, ¬ TransGen (space.store.RefersToUnawaited after.store) a a) ∧
      ((∀ b ∈ space.store.atoms, ∀ id ∈ b.outgoing, space.store.nextId ≤ id →
          after.store.get? id = none) →
        ∀ spaceId time id, write after.store spaceId time ≠ .error (.cyclicReference id)) := by
  obtain ⟨made, hgrown⟩ := h.exists_grown hs
  have hcycle := hgrown.not_cycle hs ((write_ne_cyclicReference_iff hs).mp hwrite)
  refine ⟨hcycle, fun hnone spaceId time => (write_ne_cyclicReference_iff hgrown.sound).mpr ?_⟩
  rintro ⟨a, hchain⟩
  -- A link that is referenced is live, so it was not awaited.
  have hunawaited : ∀ x y, Refers after.store.links x y →
      space.store.RefersToUnawaited after.store x y := by
    intro x y href
    refine ⟨href, fun ⟨hnew, b, hb, hid⟩ => ?_⟩
    have hy := hgrown.sound.mem_atoms.mp (List.mem_filter.mp href.2.1).1
    rw [hnone b hb y.id hid hnew] at hy
    exact absurd hy nofun
  exact hcycle a (TransGen.mono hunawaited a a hchain)

/-- A run that joins two links leaves the store without a cycle. -/
theorem write_infers_twoLinks :
    twoLinks.store.Sound ∧ twoLinks.Infers (twoLinks.forward none 1).2 ∧
      ∀ spaceId time id,
        write (twoLinks.forward none 1).2.store spaceId time ≠ .error (.cyclicReference id) := by
  have hs : twoLinks.store.Sound := Store.Reachable.sound ⟨none, _, rfl⟩
  have hinfers : twoLinks.Infers (twoLinks.forward none 1).2 := .forward none 1
  have hwrite : ∀ id, write twoLinks.store 0 Timestamp.epoch ≠ .error (.cyclicReference id) := by
    intro id
    rw [ne_eq, write_eq_cyclicReference_iff]
    exact nofun
  refine ⟨hs, hinfers, (write_infers hs hwrite hinfers).2 ?_⟩
  decide

/-- The link that joins the two of `crossing` gets the id 3 and references the second link, which
references it: a store that was written before is refused. -/
theorem infer_closes_cycle :
    crossing.store.Reachable ∧
      (∀ spaceId time id, write crossing.store spaceId time ≠ .error (.cyclicReference id)) ∧
      ∀ spaceId time,
        write (crossing.forward none 1).2.store spaceId time = .error (.cyclicReference 1) := by
  refine ⟨⟨none, _, rfl⟩, fun spaceId time id => ?_, fun spaceId time => ?_⟩
  · rw [ne_eq, write_eq_cyclicReference_iff]
    exact nofun
  · rw [write_eq_cyclicReference_iff]
    rfl

end Space

end BeliefGraph
