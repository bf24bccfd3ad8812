import Mathlib.Order.Bounds.Defs
import BeliefGraph.Proofs.Store.Evolution

/-!
# What one spread does

A spread hands the same share to every link that references the source and, if it is conservative, takes
from the source what it handed out. `Moves` is the exact effect: the share is the largest one that leaves
a share for the source, each recipient is given it once and kept in range, and the debit never leaves the
range, also when the source is among its own recipients.

The effect is a revaluation (`Sound.revalued_spreadFrom`). What it comes to for a single atom is
`exists_afterSpread`, where the bounds on the share show that only the credit can be cut off.
-/

namespace BeliefGraph

/-! ## Shares -/

namespace Store

/-- The number of recipients that a spread counts. -/
def receivers (n : ℕ) : ℕ := min n largestImportance

/-- The share of each of a number of recipients. -/
def shareOf (sti : ℤ) (n : ℕ) : ℤ := sti / (min (receivers n + 1) largestImportance : ℕ)

variable {sti : ℤ} {n : ℕ}

/-- No share of an importance that is not negative is negative. -/
theorem shareOf_nonneg (h : 0 ≤ sti) (n : ℕ) : 0 ≤ shareOf sti n :=
  Int.ediv_nonneg h (Int.natCast_nonneg _)

/-- The shares of all recipients and of the source fit into its importance. -/
theorem shareOf_mul_le (sti : ℤ) (n : ℕ) :
    shareOf sti n * (min (receivers n + 1) largestImportance : ℕ) ≤ sti :=
  Int.ediv_mul_le sti (by simp only [largestImportance]; omega)

/-- What is handed out does not exceed what the source has. -/
theorem shareOf_mul_receivers_le (h : 0 ≤ sti) (n : ℕ) : shareOf sti n * receivers n ≤ sti := by
  refine Int.le_trans (Int.mul_le_mul_of_nonneg_left ?_ (shareOf_nonneg h n)) (shareOf_mul_le sti n)
  simp only [receivers]
  omega

/-- A share is at most what there is to share. -/
theorem shareOf_le (h : 0 ≤ sti) (n : ℕ) : shareOf sti n ≤ sti := Int.ediv_le_self _ h

/-- The share is the largest one that can be given to all recipients and kept once. -/
theorem isGreatest_shareOf (sti : ℤ) (hfew : n < largestImportance) :
    IsGreatest {k : ℤ | k * (n + 1) ≤ sti} (shareOf sti n) := by
  have hparts : (min (receivers n + 1) largestImportance : ℕ) = (n + 1 : ℤ) := by
    rw [receivers, Nat.min_eq_left hfew.le, Nat.min_eq_left hfew]
    rfl
  constructor
  · show sti / _ * (n + 1 : ℤ) ≤ sti
    rw [hparts]
    exact Int.ediv_mul_le sti (by omega)
  · intro k hk
    show k ≤ sti / _
    rw [hparts, Int.le_ediv_iff_mul_le (by omega)]
    exact hk

end Store

/-! ## Raising importance -/

/-- An atom whose importance was changed by an amount and kept in range. -/
def Atom.raised (amount : ℤ) (a : Atom) : Atom := a.withSti (clampImportance (a.sti.toInt + amount))

/-- A number in the range of importance is not cut. -/
theorem toInt_clampImportance_of_le {n : ℤ} (hlow : -0x80000000 ≤ n) (hhigh : n ≤ 0x7fffffff) :
    (clampImportance n).toInt = n := by
  rw [toInt_clampImportance]
  omega

/-- The importance of an atom is in the range. -/
theorem Atom.sti_bounds (a : Atom) : -0x80000000 ≤ a.sti.toInt ∧ a.sti.toInt ≤ 0x7fffffff :=
  ⟨a.sti.le_toInt, Int.lt_add_one_iff.mp a.sti.toInt_lt⟩

/-- The importance of an atom that is given a share if it references the source. -/
def Atom.credited (source : Id) (share : ℤ) (a : Atom) : ℤ :=
  if a.references source then min (Store.largestImportance : ℤ) (a.sti.toInt + share) else a.sti.toInt

/-- An atom that does not reference the source is not credited. -/
theorem Atom.credited_of_not_references {a : Atom} {source : Id} (h : a.references source = false)
    (share : ℤ) : a.credited source share = a.sti.toInt := by
  rw [credited, h]
  exact if_neg Bool.false_ne_true

/-- To give an atom the importance that it has changes nothing. -/
theorem Atom.withSti_sti (a : Atom) : a.withSti a.sti = a := rfl

namespace Store

variable {s : Store} {source a : Atom} {mode : SpreadMode} {share : ℤ} {ids : List Id}

/-- To raise one id revalues the store, where only the atom with this id changes. -/
theorem Sound.revalued_raise (hs : s.Sound) (amount : ℤ) (id : Id) :
    s.Revalued (fun a => if a.id = id then a.raised amount else a) (s.raise amount id) :=
  hs.revalued_modify id (fun t => t) fun a => { a with sti := clampImportance (a.sti.toInt + amount) }

/-- Raising the atoms with some ids, one after the other. -/
theorem Sound.revalued_raiseAll (hs : s.Sound) (amount : ℤ) (hids : ids.Nodup) :
    s.Revalued (fun a => if a.id ∈ ids then a.raised amount else a)
      (ids.foldl (fun s id => s.raise amount id) s) := by
  induction ids generalizing s with
  | nil => simpa using Revalued.refl s
  | cons id ids ih =>
    obtain ⟨hnot, hids⟩ := List.nodup_cons.mp hids
    have hfirst := hs.revalued_raise amount id
    refine (hfirst.trans (ih (hfirst.sound hs) hids)).congr fun a => ?_
    -- The atom raised first is not among the rest.
    by_cases hid : a.id = id
    · simp [hid, hnot, Atom.raised, Atom.withSti]
    · simp [hid]

/-! ## The effect of a spread -/

/-- What the source pays for a share and a number of recipients. -/
def debit (mode : SpreadMode) (share : ℤ) (n : ℕ) : ℤ :=
  match mode with
  | .broadcast => 0
  | .conservative => share * receivers n

/-- What a spread makes of an atom: recipients are given the share, and then the source pays. -/
def afterSpread (source : Id) (mode : SpreadMode) (share : ℤ) (recipients : List Id) (a : Atom) : Atom :=
  let credited := if a.id ∈ recipients then a.raised share else a
  match mode with
  | .broadcast => credited
  | .conservative =>
    if credited.id = source then credited.raised (-(share * receivers recipients.length)) else credited

/-- Without importance or without referring links nothing is spread. -/
theorem spreadFrom_of_quiet (h : source.sti.toInt ≤ 0 ∨ s.incoming source.id = []) (mode : SpreadMode) :
    s.spreadFrom source mode = (Spread.nothing, s) := by
  rw [spreadFrom]
  exact if_pos h

/-- Otherwise the answer is the share and the ids of the links that the index finds. -/
theorem spreadFrom_of_moves (h : ¬ (source.sti.toInt ≤ 0 ∨ s.incoming source.id = []))
    (mode : SpreadMode) :
    (s.spreadFrom source mode).1
      = ⟨clampImportance (shareOf source.sti.toInt (s.incoming source.id).length),
          (s.incoming source.id).map Atom.id⟩ := by
  rw [spreadFrom]
  dsimp only
  rw [if_neg h]
  rfl

/-- The index finds each link once, however often the link lists the id. -/
theorem Sound.nodup_incoming_ids (hs : s.Sound) (id : Id) : ((s.incoming id).map Atom.id).Nodup := by
  rw [List.Nodup, List.pairwise_map]
  exact (hs.pairwise_resolveAll (Index.pairwise_ids s.referrers id)).imp Nat.ne_of_lt

/-- A spread revalues the store: credits for the recipients, and then the debit of the source. -/
theorem Sound.revalued_spreadFrom (hs : s.Sound)
    (h : ¬ (source.sti.toInt ≤ 0 ∨ s.incoming source.id = [])) (mode : SpreadMode) :
    s.Revalued (afterSpread source.id mode (shareOf source.sti.toInt (s.incoming source.id).length)
      ((s.incoming source.id).map Atom.id)) (s.spreadFrom source mode).2 := by
  rw [spreadFrom]
  dsimp only
  rw [if_neg h]
  have hcredit := hs.revalued_raiseAll (shareOf source.sti.toInt (s.incoming source.id).length)
    (hs.nodup_incoming_ids source.id)
  cases mode with
  | broadcast => exact hcredit
  | conservative =>
    refine (hcredit.trans ((hcredit.sound hs).revalued_raise _ _)).congr fun a => ?_
    rw [afterSpread, List.length_map]
    rfl

/-- A spread gives atoms other values, or changes nothing. -/
theorem Sound.evolves_spreadFrom (hs : s.Sound) (source : Atom) (mode : SpreadMode) :
    s.Evolves (s.spreadFrom source mode).2 := by
  by_cases h : source.sti.toInt ≤ 0 ∨ s.incoming source.id = []
  · rw [spreadFrom_of_quiet h]
    exact .refl s
  · exact .of (.revalued (hs.revalued_spreadFrom h mode))

/-- The importance of an atom after a spread. Only the credit can be cut off at the end of the range: the
source has at least what it pays. -/
theorem exists_afterSpread (mode : SpreadMode) (hshare : 0 ≤ share)
    (hpays : a.id = source.id → share * receivers ids.length ≤ a.sti.toInt) :
    ∃ sti, afterSpread source.id mode share ids a = a.withSti sti ∧
      sti.toInt = (if a.id ∈ ids then min (largestImportance : ℤ) (a.sti.toInt + share) else a.sti.toInt)
        - (if a.id = source.id then debit mode share ids.length else 0) := by
  have hbounds := a.sti_bounds
  -- the credit comes first, so that a source among its own recipients pays from what it was given
  obtain ⟨credit, hcredit, hvalue⟩ : ∃ credit, (if a.id ∈ ids then a.raised share else a)
      = a.withSti credit ∧ credit.toInt
        = if a.id ∈ ids then min (largestImportance : ℤ) (a.sti.toInt + share) else a.sti.toInt := by
    split
    · refine ⟨_, rfl, ?_⟩
      rw [toInt_clampImportance]
      simp only [largestImportance]
      omega
    · exact ⟨a.sti, rfl, rfl⟩
  rw [← hvalue]
  unfold afterSpread
  dsimp only
  rw [hcredit]
  cases mode with
  | broadcast => exact ⟨credit, rfl, by simp [debit]⟩
  | conservative =>
    show ∃ sti, (if a.id = source.id then _ else _) = _ ∧ _
    split
    · next hid =>
      refine ⟨_, rfl, ?_⟩
      have hpays := hpays hid
      have hpos : 0 ≤ share * receivers ids.length := Int.mul_nonneg hshare (Int.natCast_nonneg _)
      have hcredit : a.sti.toInt ≤ credit.toInt := by
        rw [hvalue]
        simp only [largestImportance]
        split <;> omega
      have hhigh := credit.toInt_lt
      show (clampImportance (credit.toInt + -(share * receivers ids.length))).toInt
        = credit.toInt - share * receivers ids.length
      rw [toInt_clampImportance_of_le (by omega) (by omega), Int.sub_eq_add_neg]
    · exact ⟨credit, rfl, by rw [sub_zero]⟩

/-! ## The exact effect -/

/-- An atom of the store is in the scan for an id exactly if it references the id. -/
theorem Sound.mem_scanIncoming_ids (hs : s.Sound) (ha : a ∈ s.atoms) (id : Id) :
    a.id ∈ (s.scanIncoming id).map Atom.id ↔ a.references id = true := by
  rw [Atom.references, List.contains_iff_mem]
  constructor
  · intro hmem
    obtain ⟨b, hb, hid⟩ := List.mem_map.mp hmem
    obtain ⟨hb, hreferences⟩ := mem_scanIncoming.mp hb
    have hget := hs.mem_atoms.mp hb
    rw [hid, hs.mem_atoms.mp ha] at hget
    cases hget
    exact hreferences
  · exact fun hreferences => List.mem_map_of_mem (mem_scanIncoming.mpr ⟨ha, hreferences⟩)

/-- A spread moves something if the source has importance and some link references it. -/
def CanSpread (s : Store) (source : Atom) : Prop :=
  0 < source.sti.toInt ∧ s.scanIncoming source.id ≠ []

/-- The share of each link that references a source. -/
def shareOfLinks (s : Store) (source : Atom) : ℤ :=
  shareOf source.sti.toInt (s.scanIncoming source.id).length

/-- For the source, which is live, the index finds what a scan finds. -/
theorem Filed.incoming_eq (hs : s.Filed) (hsource : source ∈ s.atoms) :
    s.incoming source.id = s.scanIncoming source.id :=
  (hs.files_of_contains (hs.sound.mem_ids.mp (List.mem_map_of_mem hsource))).incoming_eq hs.sound

/-- A source that cannot spread leaves the store as it was, and answers with nothing. -/
theorem spreadFrom_of_not_canSpread (hs : s.Filed) (hsource : source ∈ s.atoms)
    (h : ¬ s.CanSpread source) (mode : SpreadMode) :
    s.spreadFrom source mode = (Spread.nothing, s) := by
  refine spreadFrom_of_quiet ?_ mode
  rw [hs.incoming_eq hsource]
  rwa [CanSpread, not_and_or, not_lt, not_not] at h

/-- What a spread answers, and the importance of every atom after it. -/
theorem CanSpread.exists_revalued (h : s.CanSpread source) (hs : s.Filed) (hsource : source ∈ s.atoms)
    (mode : SpreadMode) :
    (s.spreadFrom source mode).1.share.toInt = s.shareOfLinks source ∧
    (s.spreadFrom source mode).1.recipients = (s.scanIncoming source.id).map Atom.id ∧
    ∃ f, s.Revalued f (s.spreadFrom source mode).2 ∧ ∀ a ∈ s.atoms, ∃ sti, f a = a.withSti sti ∧
      sti.toInt = a.credited source.id (s.shareOfLinks source)
        - (if a.id = source.id
            then debit mode (s.shareOfLinks source) (s.scanIncoming source.id).length else 0) := by
  obtain ⟨hpos, hlinks⟩ := h
  have hincoming := hs.incoming_eq hsource
  have hmoves : ¬ (source.sti.toInt ≤ 0 ∨ s.incoming source.id = []) := by
    rw [hincoming]
    exact not_or.mpr ⟨Int.not_le.mpr hpos, hlinks⟩
  have hrevalued := hs.sound.revalued_spreadFrom hmoves mode
  rw [spreadFrom_of_moves hmoves]
  rw [hincoming] at hrevalued ⊢
  have hnonneg : 0 ≤ s.shareOfLinks source := shareOf_nonneg hpos.le _
  have hle : s.shareOfLinks source ≤ source.sti.toInt := shareOf_le hpos.le _
  have hbounds := source.sti_bounds
  refine ⟨toInt_clampImportance_of_le ?_ ?_, rfl, _, hrevalued, fun a ha => ?_⟩
  · exact Int.le_trans (by decide) hnonneg
  · exact Int.le_trans hle hbounds.2
  · have hpays : a.id = source.id →
        s.shareOfLinks source * receivers ((s.scanIncoming source.id).map Atom.id).length
          ≤ a.sti.toInt := by
      intro hid
      have hget := hs.sound.mem_atoms.mp ha
      rw [hid, hs.sound.mem_atoms.mp hsource] at hget
      cases hget
      rw [List.length_map]
      exact shareOf_mul_receivers_le hpos.le _
    obtain ⟨sti, hafter, hvalue⟩ := exists_afterSpread mode hnonneg hpays
    refine ⟨sti, hafter, ?_⟩
    rw [hvalue, List.length_map]
    simp only [hs.sound.mem_scanIncoming_ids ha]
    rfl

/-- The exact effect of a spread that moves something. -/
structure Moves (s : Store) (source : Atom) (mode : SpreadMode) (spread : Spread) (after : Store) :
    Prop where
  /-- The largest share that each recipient can be given and the source can keep. -/
  share : IsGreatest {k : ℤ | k * ((s.scanIncoming source.id).length + 1) ≤ source.sti.toInt}
    spread.share.toInt
  /-- The links that reference the source, each of them once. -/
  recipients : spread.recipients = (s.scanIncoming source.id).map Atom.id
  upwards : spread.recipients.Pairwise (· < ·)
  credited : ∀ a ∈ s.scanIncoming source.id, a.id ≠ source.id →
    ∃ sti, after.get? a.id = some (a.withSti sti) ∧
      sti.toInt = min (largestImportance : ℤ) (a.sti.toInt + spread.share.toInt)
  /-- The source is credited like the others if it references itself, and then pays for all of them. What
  it pays is not cut off. -/
  paid : ∃ sti, after.get? source.id = some (source.withSti sti) ∧
    sti.toInt = (if source.references source.id
        then min (largestImportance : ℤ) (source.sti.toInt + spread.share.toInt)
        else source.sti.toInt)
      - if mode = .conservative then spread.share.toInt * (s.scanIncoming source.id).length else 0
  /-- A source that does not reference itself keeps at least a share, or all it has. -/
  kept : source.references source.id = false →
    (mode = .broadcast → after.get? source.id = some source) ∧
    (mode = .conservative → ∃ sti, after.get? source.id = some (source.withSti sti) ∧
      0 ≤ spread.share.toInt ∧ spread.share.toInt ≤ sti.toInt)
  others : ∀ id, id ∉ spread.recipients → id ≠ source.id → after.get? id = s.get? id
  limit : after.limit = s.limit
  nextId : after.nextId = s.nextId
  labelled : after.labelled = s.labelled
  referrers : after.referrers = s.referrers

/-- With few enough recipients the source of a conservative spread pays for each of them. -/
theorem debit_eq {n : ℕ} (hfew : n < largestImportance) (mode : SpreadMode) (share : ℤ) :
    debit mode share n = if mode = .conservative then share * n else 0 := by
  cases mode with
  | broadcast => rfl
  | conservative => rw [debit, receivers, Nat.min_eq_left hfew.le, if_pos rfl]

/-- An atom after a spread with few enough recipients: credited if it references the source, and debited if it
is the source and pays. -/
theorem CanSpread.exists_get? (h : s.CanSpread source) (hs : s.Filed) (hsource : source ∈ s.atoms)
    (hfew : (s.scanIncoming source.id).length < largestImportance) (mode : SpreadMode) {a : Atom}
    (ha : a ∈ s.atoms) :
    ∃ sti, (s.spreadFrom source mode).2.get? a.id = some (a.withSti sti) ∧
      sti.toInt = a.credited source.id (s.spreadFrom source mode).1.share.toInt
        - (if a.id = source.id then
            if mode = .conservative
            then (s.spreadFrom source mode).1.share.toInt * (s.scanIncoming source.id).length else 0
          else 0) := by
  obtain ⟨hshare, -, f, hrevalued, hvalues⟩ := h.exists_revalued hs hsource mode
  obtain ⟨sti, hf, hvalue⟩ := hvalues a ha
  refine ⟨sti, by rw [hrevalued.get?_of_mem hs.sound ha, hf], ?_⟩
  rw [hvalue, hshare, debit_eq hfew]

/-- A spread with few enough recipients has its exact effect: the greatest share for each link, and the
debit for the source. -/
theorem CanSpread.moves (h : s.CanSpread source) (hs : s.Filed) (hsource : source ∈ s.atoms)
    (hfew : (s.scanIncoming source.id).length < largestImportance) (mode : SpreadMode) :
    s.Moves source mode (s.spreadFrom source mode).1 (s.spreadFrom source mode).2 := by
  obtain ⟨hshare, hrecipients, f, hrevalued, -⟩ := h.exists_revalued hs hsource mode
  have hgreatest := isGreatest_shareOf source.sti.toInt hfew
  have hupwards : ((s.scanIncoming source.id).map Atom.id).Pairwise (· < ·) := by
    rw [List.pairwise_map]
    exact hs.sound.pairwise_atoms.filter _
  have hafter := fun a => h.exists_get? hs hsource hfew mode (a := a)
  have hnonneg : 0 ≤ (s.spreadFrom source mode).1.share.toInt := hshare ▸ shareOf_nonneg h.1.le _
  -- the share times one more than the recipients fits: what the source keeps is at least a share
  have hpays := hgreatest.1
  change shareOf _ _ * _ ≤ _ at hpays
  rw [← shareOfLinks, ← hshare] at hpays
  -- from here on only the values count, not how the spread computed them
  generalize (s.spreadFrom source mode).1 = spread at *
  generalize (s.spreadFrom source mode).2 = after at *
  refine
    { share := by rw [hshare]; exact hgreatest
      recipients := hrecipients
      upwards := hrecipients ▸ hupwards
      credited := fun a ha hid => ?_
      paid := ?_
      kept := fun hself => ⟨?_, ?_⟩
      others := fun id hnot hid => ?_
      limit := hrevalued.limit
      nextId := hrevalued.nextId
      labelled := hrevalued.labelled
      referrers := hrevalued.referrers }
  · obtain ⟨ha, hreferences⟩ := mem_scanIncoming.mp ha
    obtain ⟨sti, hget, hvalue⟩ := hafter a ha
    have hreferences : a.references source.id = true := List.contains_iff_mem.mpr hreferences
    refine ⟨sti, hget, ?_⟩
    rw [hvalue, Atom.credited, if_pos hreferences, if_neg hid, sub_zero]
  · obtain ⟨sti, hget, hvalue⟩ := hafter source hsource
    refine ⟨sti, hget, ?_⟩
    rw [hvalue, Atom.credited, if_pos rfl]
  · rintro rfl
    obtain ⟨sti, hget, hvalue⟩ := hafter source hsource
    rw [Atom.credited_of_not_references hself, if_pos rfl, if_neg (by decide), sub_zero] at hvalue
    rw [hget, Int32.toInt_inj.mp hvalue, Atom.withSti_sti]
  · rintro rfl
    obtain ⟨sti, hget, hvalue⟩ := hafter source hsource
    rw [Atom.credited_of_not_references hself, if_pos rfl, if_pos rfl] at hvalue
    refine ⟨sti, hget, hnonneg, ?_⟩
    rw [Int.mul_add, Int.mul_one] at hpays
    omega
  · cases hget : s.get? id with
    | none => rw [hrevalued.get?, hget, Option.map_none]
    | some a =>
      obtain rfl := hs.sound.keyed hget
      have ha := hs.sound.mem_atoms.mpr hget
      have hself : a.references source.id = false := by
        rwa [hrecipients, hs.sound.mem_scanIncoming_ids ha, Bool.not_eq_true] at hnot
      obtain ⟨sti, hafter, hvalue⟩ := hafter a ha
      rw [Atom.credited_of_not_references hself, if_neg hid, sub_zero] at hvalue
      rw [hafter, Int32.toInt_inj.mp hvalue, Atom.withSti_sti]

end Store

end BeliefGraph
