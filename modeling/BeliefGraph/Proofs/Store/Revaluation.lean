import Mathlib.Algebra.BigOperators.Group.List.Basic
import Mathlib.Algebra.Ring.Int.Defs
import BeliefGraph.Proofs.Store.Scan
import BeliefGraph.Store.Focus
import BeliefGraph.Store.Spread

/-!
# Stores whose atoms got other values

Spreading and decay change the values of atoms and nothing else: which atoms there are, what they
reference and what the indexes hold stays as it was. `Store.Revalued` says so with one function for all
atoms. Such changes compose, and what is read off the structure of a store passes through them.
-/

namespace BeliefGraph

/-- A function that changes at most the truth and the attention of atoms. -/
structure Atom.KeepsStructure (f : Atom → Atom) : Prop where
  id : ∀ a, (f a).id = a.id
  kind : ∀ a, (f a).kind = a.kind
  shape : ∀ a, (f a).shape = a.shape

namespace Atom.KeepsStructure

variable {f g : Atom → Atom}

theorem refl : KeepsStructure fun a => a := ⟨fun _ => rfl, fun _ => rfl, fun _ => rfl⟩

theorem comp (hg : KeepsStructure g) (hf : KeepsStructure f) : KeepsStructure fun a => g (f a) where
  id a := (hg.id _).trans (hf.id a)
  kind a := (hg.kind _).trans (hf.kind a)
  shape a := (hg.shape _).trans (hf.shape a)

/-- A change that keeps structure keeps the references. -/
theorem outgoing (hf : KeepsStructure f) (a : Atom) : (f a).outgoing = a.outgoing :=
  congrArg Shape.outgoing (hf.shape a)

/-- A new short-term importance for each atom keeps structure. -/
theorem ofSti (sti : Atom → Int32) : KeepsStructure fun a => a.withSti (sti a) :=
  ⟨fun _ => rfl, fun _ => rfl, fun _ => rfl⟩

/-- To change only some of the atoms keeps structure. -/
theorem ite (hf : KeepsStructure f) (p : Atom → Prop) [DecidablePred p] :
    KeepsStructure fun a => if p a then f a else a where
  id a := by
    split
    · exact hf.id a
    · rfl
  kind a := by
    split
    · exact hf.kind a
    · rfl
  shape a := by
    split
    · exact hf.shape a
    · rfl

end Atom.KeepsStructure

namespace Store

/-- A store in which every atom has been changed by a function that keeps structure. -/
structure Revalued (s : Store) (f : Atom → Atom) (after : Store) : Prop where
  keeps : Atom.KeepsStructure f
  get? : ∀ id, after.get? id = (s.get? id).map f
  limit : after.limit = s.limit
  nextId : after.nextId = s.nextId
  labelled : after.labelled = s.labelled
  referrers : after.referrers = s.referrers

variable {s mid after : Store} {f g : Atom → Atom}

/-! ## What revaluation keeps -/

namespace Revalued

theorem refl (s : Store) : s.Revalued (fun a => a) s where
  keeps := .refl
  get? id := by rw [Option.map_id']
  limit := rfl
  nextId := rfl
  labelled := rfl
  referrers := rfl

theorem trans (h : s.Revalued f mid) (h' : mid.Revalued g after) :
    s.Revalued (fun a => g (f a)) after where
  keeps := h'.keeps.comp h.keeps
  get? id := by
    rw [h'.get?, h.get?, Option.map_map]
    rfl
  limit := h'.limit.trans h.limit
  nextId := h'.nextId.trans h.nextId
  labelled := h'.labelled.trans h.labelled
  referrers := h'.referrers.trans h.referrers

theorem congr (h : s.Revalued f after) (hfg : ∀ a, g a = f a) : s.Revalued g after := by
  rwa [funext hfg]

/-- The atom under a live id is the one from before, changed by the function. -/
theorem get?_of_mem (h : s.Revalued f after) (hs : s.Sound) {a : Atom} (ha : a ∈ s.atoms) :
    after.get? a.id = some (f a) := by
  rw [h.get?, hs.mem_atoms.mp ha, Option.map_some]

/-- Each atom of a revalued store was one of the store, before it was changed. -/
theorem exists_of_get? (h : s.Revalued f after) {id : Id} {b : Atom} (hb : after.get? id = some b) :
    ∃ a, s.get? id = some a ∧ f a = b := by
  rw [h.get?] at hb
  exact Option.map_eq_some_iff.mp hb

/-- A revalued store is sound. -/
theorem sound (h : s.Revalued f after) (hs : s.Sound) : after.Sound := by
  refine ⟨fun hb => ?_, fun hb => ?_, fun hb => ?_, by rw [h.nextId]; exact hs.next_pos⟩ <;>
    obtain ⟨a, ha, rfl⟩ := h.exists_of_get? hb
  · rw [h.keeps.id]
    exact hs.keyed ha
  · rw [h.nextId]
    exact hs.issued ha
  · exact hs.positive ha

/-- The atoms stand where they stood. -/
theorem atoms_eq (h : s.Revalued f after) (hs : s.Sound) : after.atoms = s.atoms.map f := by
  -- the changed atoms stand in the order of their ids and are those that the store finds
  refine ((h.sound hs).eq_atoms ?_ fun b => ?_).symm
  · rw [List.pairwise_map]
    refine hs.pairwise_atoms.imp fun hlt => ?_
    rw [ById, h.keeps.id, h.keeps.id]
    exact hlt
  · rw [List.mem_map]
    constructor
    · rintro ⟨a, ha, rfl⟩
      rw [h.keeps.id]
      exact h.get?_of_mem hs ha
    · intro hb
      obtain ⟨a, ha, hab⟩ := h.exists_of_get? hb
      rw [← hs.keyed ha] at ha
      exact ⟨a, hs.mem_atoms.mpr ha, hab⟩

/-- The live ids are those from before. -/
theorem contains_eq (h : s.Revalued f after) (id : Id) : after.contains id = s.contains id := by
  rw [contains, h.get?, Option.isSome_map, contains]

/-- The atoms are listed under the same ids, in the same order. -/
theorem ids_eq (h : s.Revalued f after) (hs : s.Sound) :
    after.atoms.map Atom.id = s.atoms.map Atom.id := by
  rw [h.atoms_eq hs, List.map_map]
  exact List.map_congr_left fun a _ => h.keeps.id a

/-- There are as many atoms as before. -/
theorem size_eq (h : s.Revalued f after) (hs : s.Sound) : after.size = s.size := by
  rw [size_eq_length_atoms, h.atoms_eq hs, List.length_map, ← size_eq_length_atoms]

/-- Links that were filed are still filed. -/
theorem files (h : s.Revalued f after) {id : Id} (hfiles : s.Files id) : after.Files id := by
  intro x
  rw [h.referrers, hfiles, h.get?]
  simp only [Option.map_eq_some_iff]
  constructor
  · rintro ⟨a, ha, hid⟩
    exact ⟨f a, ⟨a, ha, rfl⟩, by rwa [h.keeps.outgoing]⟩
  · rintro ⟨_, ⟨a, ha, rfl⟩, hid⟩
    exact ⟨a, ha, by rwa [h.keeps.outgoing] at hid⟩

end Revalued

/-! ## Operations that revalue -/

/-- To write the values of one atom revalues the store, where only this atom changes. -/
theorem Sound.revalued_modify (hs : s.Sound) (id : Id) (t : Truth → Truth) (g : Attention → Attention) :
    s.Revalued (fun a => if a.id = id then { a with truth := t a.truth, attention := g a.attention } else a)
      (s.modify id t g) where
  keeps := Atom.KeepsStructure.ite (f := fun a =>
    { a with truth := t a.truth, attention := g a.attention })
    ⟨fun _ => rfl, fun _ => rfl, fun _ => rfl⟩ fun a => a.id = id
  get? x := by
    rw [get?_modify]
    cases hx : s.get? x with
    | none => rw [Option.map_none, ite_self, Option.map_none]
    | some a =>
      obtain rfl : a.id = x := hs.keyed hx
      rw [Option.map_some, Option.map_some, apply_ite some]
  limit := rfl
  nextId := rfl
  labelled := rfl
  referrers := rfl

/-- Decay revalues the store: each atom keeps the part of its importance that remains. -/
theorem revalued_decay (s : Store) (rate : Float) :
    s.Revalued (fun a => a.withSti (scaled a.sti (remainder rate))) (s.decay rate) where
  keeps := .ofSti _
  get? _ := Std.TreeMap.getElem?_map
  limit := rfl
  nextId := rfl
  labelled := rfl
  referrers := rfl

/-! ## Totals -/

/-- The sum of some importance over all live atoms, as the sum of a list. -/
theorem total_eq_sum (s : Store) (importance : Attention → Int32) :
    s.total importance = (s.atoms.map fun a => (importance a.attention).toInt).sum := by
  rw [total, List.sum_eq_foldr, List.foldr_map]

/-- The total of an importance afterwards is the sum over the atoms from before, each one changed. -/
theorem Revalued.total_eq (h : s.Revalued f after) (hs : s.Sound) (importance : Attention → Int32) :
    after.total importance = (s.atoms.map fun a => (importance (f a).attention).toInt).sum := by
  rw [total_eq_sum, h.atoms_eq hs, List.map_map]
  rfl

end Store

end BeliefGraph
