import BeliefGraph.Proofs.Store.View
import BeliefGraph.Store.Focus

/-!
# The most important atoms

Atoms are ranked by sorting them by importance. The sort is stable: atoms of the same importance keep the
order in which they are listed (`ranked_filter_sti`), which is the order of their ids. So the ranking is
by importance downwards and then by id upwards (`Sound.pairwise_ranked`), and the ids that are taken from
its front are those of the top (`Sound.isTop_mostImportant`).
-/

namespace BeliefGraph

/-- An atom is ranked above another one. -/
def Atom.Outranks (a b : Atom) : Prop :=
  b.sti.toInt < a.sti.toInt ∨ b.sti.toInt = a.sti.toInt ∧ a.id < b.id

namespace Store

variable {s : Store}

/-- Some ids are those of the highest ranked atoms, as many as there are places. -/
structure IsTop (s : Store) (places : ℕ) (ids : List Id) : Prop where
  /-- They are the first ones of the live atoms in the order of rank. -/
  first : ∃ order : List Atom, order.Perm s.atoms ∧ order.Pairwise Atom.Outranks ∧
    ids = (order.take (min places s.size)).map Atom.id
  /-- Each of them is ranked above each live atom that is not among them. -/
  outside : ∀ a ∈ s.atoms, a.id ∈ ids → ∀ b ∈ s.atoms, b.id ∉ ids → a.Outranks b

/-- Ranking is transitive. -/
theorem ranksBefore_trans (a b c : Atom) (hab : ranksBefore a b = true) (hbc : ranksBefore b c = true) :
    ranksBefore a c = true := by
  rw [ranksBefore, decide_eq_true_eq] at *
  exact hbc.trans hab

/-- Of two atoms one ranks before the other, or they rank alike. -/
theorem ranksBefore_total (a b : Atom) : (ranksBefore a b || ranksBefore b a) = true := by
  rw [Bool.or_eq_true, ranksBefore, ranksBefore, decide_eq_true_eq, decide_eq_true_eq]
  exact Int.le_total _ _

/-- Ranking the atoms of a store neither adds nor loses any. -/
theorem perm_ranked (s : Store) : s.ranked.Perm s.atoms := List.mergeSort_perm _ _

/-- Atoms of the same importance are ranked in the order in which they are listed. -/
theorem ranked_filter_sti (s : Store) (n : ℤ) :
    s.ranked.filter (fun a => a.sti.toInt = n) = s.atoms.filter fun a => a.sti.toInt = n := by
  have hequal : (s.atoms.filter fun a => a.sti.toInt = n).Pairwise fun a b => ranksBefore a b = true := by
    refine List.pairwise_of_forall_mem_list fun a ha b hb => ?_
    rw [List.mem_filter, decide_eq_true_eq] at ha hb
    rw [ranksBefore, ha.2, hb.2]
    exact decide_eq_true (Int.le_refl n)
  -- The sort keeps the order of what need not be swapped.
  have hsub := (List.sublist_mergeSort ranksBefore_trans ranksBefore_total hequal
    List.filter_sublist).filter fun a => a.sti.toInt = n
  simp only [List.filter_filter, Bool.and_self] at hsub
  exact (hsub.eq_of_length (s.perm_ranked.symm.filter _).length_eq).symm

/-- In a sound store the ranked list is strict: no two atoms share a place. -/
theorem Sound.pairwise_ranked (hs : s.Sound) : s.ranked.Pairwise Atom.Outranks := by
  have hsorted := List.pairwise_mergeSort ranksBefore_trans ranksBefore_total s.atoms
  rw [List.pairwise_iff_forall_sublist] at hsorted ⊢
  intro a b hab
  have hle : b.sti.toInt ≤ a.sti.toInt := of_decide_eq_true (hsorted hab)
  refine hle.lt_or_eq.imp_right fun heq => ⟨heq, ?_⟩
  -- Among the atoms of this importance the order is that of the ids.
  have hids := hs.pairwise_atoms.filter fun c => c.sti.toInt = a.sti.toInt
  rw [← ranked_filter_sti] at hids
  refine List.pairwise_iff_forall_sublist.mp hids ?_
  simpa [heq] using hab.filter fun c => c.sti.toInt = a.sti.toInt

/-- The first ranked ids are the top ones, as many as there are places. -/
theorem Sound.isTop_mostImportant (hs : s.Sound) (places : ℕ) :
    s.IsTop places (s.mostImportant places) := by
  have hsize : s.ranked.length = s.size := by
    rw [s.perm_ranked.length_eq, size_eq_length_atoms]
  refine ⟨⟨s.ranked, s.perm_ranked, hs.pairwise_ranked, ?_⟩, fun a ha hin b hb hout => ?_⟩
  · rw [mostImportant, List.take_eq_take_min, hsize]
  · have horder := hs.pairwise_ranked
    rw [← List.take_append_drop places s.ranked, List.pairwise_append] at horder
    refine horder.2.2 a ?_ b ?_
    · obtain ⟨c, hc, hid⟩ := List.mem_map.mp hin
      have hget := hs.mem_atoms.mp (s.perm_ranked.mem_iff.mp (List.mem_of_mem_take hc))
      rw [hid, hs.mem_atoms.mp ha] at hget
      cases hget
      exact hc
    · have hranked := s.perm_ranked.mem_iff.mpr hb
      rw [← List.take_append_drop places s.ranked, List.mem_append] at hranked
      exact hranked.resolve_left fun hmem => hout (List.mem_map_of_mem hmem)

/-- Of two atoms at most one outranks the other. -/
theorem not_outranks_of_outranks {a b : Atom} (h : a.Outranks b) : ¬ b.Outranks a := by
  rintro (hlt' | ⟨heq', hid'⟩) <;> rcases h with hlt | ⟨heq, hid⟩
  · exact Int.lt_asymm hlt hlt'
  · exact hlt'.ne heq.symm
  · exact hlt.ne heq'.symm
  · exact Nat.lt_asymm hid hid'

/-- The top depends on nothing but the atoms. -/
theorem IsTop.eq {t : Store} {places : ℕ} {ids ids' : List Id} (h : s.IsTop places ids)
    (h' : t.IsTop places ids') (hatoms : t.atoms = s.atoms) : ids' = ids := by
  obtain ⟨order, hperm, hsorted, rfl⟩ := h.first
  obtain ⟨order', hperm', hsorted', rfl⟩ := h'.first
  rw [hatoms] at hperm'
  obtain rfl : order' = order :=
    List.Perm.eq_of_pairwise (fun _ _ _ _ h h' => absurd h' (not_outranks_of_outranks h)) hsorted'
      hsorted (hperm'.trans hperm.symm)
  rw [size_eq_length_atoms, hatoms, ← size_eq_length_atoms]

/-- What is at the top is live. -/
theorem IsTop.contains {places : ℕ} {ids : List Id} (h : s.IsTop places ids) (hs : s.Sound) {id : Id}
    (hid : id ∈ ids) : s.contains id = true := by
  obtain ⟨order, hperm, -, rfl⟩ := h.first
  obtain ⟨a, ha, rfl⟩ := List.mem_map.mp hid
  exact hs.mem_ids.mp (List.mem_map_of_mem (hperm.mem_iff.mp (List.mem_of_mem_take ha)))

end Store

end BeliefGraph
