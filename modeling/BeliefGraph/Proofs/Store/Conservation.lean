import BeliefGraph.Proofs.Store.Spread

/-!
# What a conservative spread does to the total

A conservative spread takes from the source a share for each link that it counts. Each link is given the
share, except for what does not fit below the largest importance, and this part is lost: the source has
paid for it. So the total falls by what was cut off (`CanSpread.total_spreadFrom`) and stays the same when
every link has room.

The only other difference comes from links that are not counted, of which there are none among fewer
atoms than the largest importance.
-/

namespace BeliefGraph

/-! ## Sums over the atoms -/

namespace Store

variable {s : Store} {source : Atom}

/-- The source of a spread is one atom of the store and no more. -/
theorem Sound.filter_id_eq (hs : s.Sound) (hsource : source ∈ s.atoms) :
    (s.atoms.filter fun a => a.id = source.id) = [source] := by
  refine (hs.pairwise_atoms.filter _).eq_of_mem_iff (List.pairwise_singleton _ _) fun a => ?_
  rw [List.mem_filter, decide_eq_true_eq, List.mem_singleton]
  constructor
  · rintro ⟨ha, hid⟩
    rw [hs.mem_atoms, hid, hs.mem_atoms.mp hsource] at ha
    exact (Option.some.inj ha).symm
  · rintro rfl
    exact ⟨hsource, rfl⟩

/-- The scan for an id goes over all atoms and keeps those that reference it. -/
theorem scanIncoming_eq_filter (s : Store) (id : Id) :
    s.scanIncoming id = s.atoms.filter fun a => a.references id = true := by
  rw [scanIncoming, query]
  refine List.filter_congr fun a _ => ?_
  rw [Bool.and_eq_right_iff_imp.mpr, Bool.decide_eq_true]
  intro h
  rw [Atom.references, List.contains_iff_mem] at h
  exact Atom.isLink_of_mem_outgoing h

/-- What a single atom contributes to a sum. -/
theorem Sound.sum_ite_id (hs : s.Sound) (hsource : source ∈ s.atoms) (n : ℤ) :
    (s.atoms.map fun a => if a.id = source.id then n else 0).sum = n := by
  rw [List.sum_map_ite, hs.filter_id_eq hsource]
  simp

/-- What the links that reference an id contribute to a sum. -/
theorem sum_ite_references (s : Store) (id : Id) (g : Atom → ℤ) :
    (s.atoms.map fun a => if a.references id = true then g a else 0).sum
      = ((s.scanIncoming id).map g).sum := by
  rw [List.sum_map_ite, scanIncoming_eq_filter]
  simp

end Store

/-! ## One spread -/

/-- The part of a share that does not fit below the largest importance. -/
def Atom.excess (share : ℤ) (a : Atom) : ℤ := max 0 (a.sti.toInt + share - Store.largestImportance)

/-- A referring atom gets its share less the part that does not fit. -/
theorem Atom.credited_eq (a : Atom) (source : Id) (share : ℤ) :
    a.credited source share
      = a.sti.toInt + if a.references source = true then share - a.excess share else 0 := by
  rw [credited, excess]
  split <;> omega

namespace Store

variable {s : Store} {source : Atom}

/-- What is cut off when each link that references a source is given its share. -/
def cutOff (s : Store) (source : Atom) : ℤ :=
  ((s.scanIncoming source.id).map (Atom.excess (s.shareOfLinks source))).sum

/-- What is given to links that the source does not pay for. -/
def unpaid (s : Store) (source : Atom) : ℤ :=
  s.shareOfLinks source
    * ((s.scanIncoming source.id).length - receivers (s.scanIncoming source.id).length)

/-- A conservative spread costs the total what is cut off, less what is not paid for. -/
theorem CanSpread.total_spreadFrom (h : s.CanSpread source) (hs : s.Filed) (hsource : source ∈ s.atoms) :
    (s.spreadFrom source .conservative).2.total Attention.sti
      = s.total Attention.sti - (s.cutOff source - s.unpaid source) := by
  obtain ⟨-, -, f, hrevalued, hvalues⟩ := h.exists_revalued hs hsource .conservative
  have hsum : (s.atoms.map fun a => (f a).attention.sti.toInt).sum
      = (s.atoms.map fun a => a.attention.sti.toInt
          + (if a.references source.id = true
              then s.shareOfLinks source - a.excess (s.shareOfLinks source) else 0)
          + (if a.id = source.id
              then -debit .conservative (s.shareOfLinks source) (s.scanIncoming source.id).length
              else 0)).sum := by
    refine congrArg List.sum (List.map_congr_left fun a ha => ?_)
    obtain ⟨sti, hf, hvalue⟩ := hvalues a ha
    rw [hf]
    show sti.toInt = a.sti.toInt + _ + _
    rw [hvalue, Atom.credited_eq, Int.sub_eq_add_neg, apply_ite Neg.neg, Int.neg_zero]
  -- each link gets the same share, so that only what is cut off depends on the link
  have hshares : ((s.scanIncoming source.id).map fun a =>
      s.shareOfLinks source - a.excess (s.shareOfLinks source)).sum
        = s.shareOfLinks source * (s.scanIncoming source.id).length - s.cutOff source := by
    rw [cutOff]
    induction s.scanIncoming source.id with
    | nil => simp
    | cons a links ih =>
      rw [List.map_cons, List.sum_cons, ih, List.map_cons, List.sum_cons, List.length_cons,
        Int.natCast_succ, Int.mul_add, Int.mul_one]
      omega
  rw [hrevalued.total_eq hs.sound, hsum, List.sum_map_add, List.sum_map_add, sum_ite_references,
    hs.sound.sum_ite_id hsource, hshares, ← total_eq_sum, debit, unpaid, Int.mul_sub]
  omega

/-- A spread does not touch long-term importance. -/
theorem CanSpread.total_lti_spreadFrom (h : s.CanSpread source) (hs : s.Filed)
    (hsource : source ∈ s.atoms) (mode : SpreadMode) :
    (s.spreadFrom source mode).2.total Attention.lti = s.total Attention.lti := by
  obtain ⟨-, -, f, hrevalued, hvalues⟩ := h.exists_revalued hs hsource mode
  rw [hrevalued.total_eq hs.sound, total_eq_sum]
  refine congrArg List.sum (List.map_congr_left fun a ha => ?_)
  obtain ⟨sti, hf, -⟩ := hvalues a ha
  rw [hf]
  rfl

/-! ## When nothing is lost -/

/-- In a store that is not larger than importance can count, everything that is given is paid for. -/
theorem unpaid_eq_zero (h : s.size ≤ largestImportance) (source : Atom) : s.unpaid source = 0 := by
  have hle : (s.scanIncoming source.id).length ≤ largestImportance := by
    refine Nat.le_trans ?_ h
    rw [size_eq_length_atoms]
    exact List.length_filter_le _ _
  rw [unpaid, receivers, Nat.min_eq_left hle, Int.sub_self, Int.mul_zero]

/-- Nothing is cut off exactly when each link has room for its share. -/
theorem cutOff_cases (s : Store) (source : Atom) :
    0 ≤ s.cutOff source ∧ (s.cutOff source = 0 ↔ ∀ link ∈ s.scanIncoming source.id,
      link.sti.toInt + s.shareOfLinks source ≤ largestImportance) := by
  rw [cutOff]
  induction s.scanIncoming source.id with
  | nil => simp
  | cons a links ih =>
    rw [List.map_cons, List.sum_cons, List.forall_mem_cons, ← ih.2, Atom.excess]
    omega

end Store

end BeliefGraph
