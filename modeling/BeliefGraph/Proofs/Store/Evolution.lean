import Mathlib.Logic.Relation
import BeliefGraph.Proofs.Store.Revaluation

/-!
# How a store evolves

Whatever is done to a store comes down to four changes: an atom is made, an atom is deleted, an id is
handed out, or the atoms get other values. What each of them keeps is kept along every evolution: a
store files the links that reference an id for as long as the id has not been spent (`Filed.evolves`),
and an atom under an id that was handed out earlier is one that was there (`Evolves.later`).
-/

namespace BeliefGraph.Store

variable {s mid after : Store} {f : Atom → Atom} {id : Id}

/-- A change of a store. -/
inductive Change (s : Store) : Store → Prop
  | placed (kind : Kind) (shape : Shape) : Change s (s.place kind shape)
  | deleted {a : Atom} (h : s.get? a.id = some a) : Change s (s.without a)
  | reserved : Change s s.reserve.2
  | revalued {f : Atom → Atom} {after : Store} (h : s.Revalued f after) : Change s after

/-- Changes of a store, one after the other. -/
def Evolves : Store → Store → Prop := Relation.ReflTransGen Change

namespace Evolves

theorem refl (s : Store) : s.Evolves s := Relation.ReflTransGen.refl

/-- One change is a stretch of evolution. -/
theorem of (h : s.Change after) : s.Evolves after := Relation.ReflTransGen.single h

theorem trans (h : s.Evolves mid) (h' : mid.Evolves after) : s.Evolves after :=
  Relation.ReflTransGen.trans h h'

/-- To write the values of one atom continues the evolution. -/
theorem modify (h : s.Evolves after) (hafter : after.Sound) (id : Id) (t : Truth → Truth)
    (g : Attention → Attention) : s.Evolves (after.modify id t g) :=
  h.trans (of (.revalued (hafter.revalued_modify id t g)))

end Evolves

/-! ## Soundness -/

/-- Each change keeps a store sound. -/
theorem Change.sound (h : s.Change after) (hs : s.Sound) : after.Sound := by
  cases h with
  | placed kind shape => exact hs.place kind shape
  | deleted => exact hs.without _
  | reserved => exact hs.reserve
  | revalued h => exact h.sound hs

/-- Through all changes a store stays sound. -/
theorem Evolves.sound (h : s.Evolves after) (hs : s.Sound) : after.Sound := by
  induction h with
  | refl => exact hs
  | tail _ hchange ih => exact hchange.sound ih

/-! ## Atoms that stay -/

/-- What is left of a store at a later time: an atom under an id that had been handed out was there, with
the same kind and shape. So an id that is spent stays spent, and atoms made since have other ids. -/
structure Later (s after : Store) : Prop where
  nextId : s.nextId ≤ after.nextId
  kept : ∀ {id a}, after.get? id = some a → id < s.nextId →
    ∃ b, s.get? id = some b ∧ b.kind = a.kind ∧ b.shape = a.shape

theorem Later.refl (s : Store) : s.Later s := ⟨Nat.le_refl _, fun ha _ => ⟨_, ha, rfl, rfl⟩⟩

theorem Later.trans (h : s.Later mid) (h' : mid.Later after) : s.Later after where
  nextId := h.nextId.trans h'.nextId
  kept ha hid := by
    obtain ⟨b, hb, hkind, hshape⟩ := h'.kept ha (hid.trans_le h.nextId)
    obtain ⟨c, hc, hkind', hshape'⟩ := h.kept hb hid
    exact ⟨c, hc, hkind'.trans hkind, hshape'.trans hshape⟩

/-- An id that is spent is spent in each later store. -/
theorem Later.spent (h : s.Later after) (hid : s.Spent id) : after.Spent id := by
  refine ⟨hid.1.trans_le h.nextId, Option.eq_none_iff_forall_ne_some.mpr fun a ha => ?_⟩
  obtain ⟨b, hb, -⟩ := h.kept ha hid.1
  rw [hid.2] at hb
  exact nomatch hb

/-- A change keeps the kind and the shape of the atoms that it leaves. -/
theorem Change.later (h : s.Change after) : s.Later after := by
  cases h with
  | placed kind shape =>
    refine ⟨Nat.le_succ _, fun ha hid => ?_⟩
    -- the atom that is made has the next id, which had not been handed out
    rw [get?_place, if_neg hid.ne] at ha
    exact ⟨_, ha, rfl, rfl⟩
  | deleted =>
    refine ⟨Nat.le_refl _, fun ha _ => ?_⟩
    rw [get?_without] at ha
    split at ha
    · exact nomatch ha
    · exact ⟨_, ha, rfl, rfl⟩
  | reserved => exact ⟨Nat.le_succ _, fun ha _ => ⟨_, ha, rfl, rfl⟩⟩
  | revalued h =>
    refine ⟨h.nextId.ge, fun ha _ => ?_⟩
    obtain ⟨b, hb, rfl⟩ := h.exists_of_get? ha
    exact ⟨b, hb, (h.keeps.kind b).symm, (h.keeps.shape b).symm⟩

/-- Through all changes the atoms that are left keep kind and shape. -/
theorem Evolves.later (h : s.Evolves after) : s.Later after := by
  induction h with
  | refl => exact .refl s
  | tail _ hchange ih => exact ih.trans hchange.later

/-! ## Links that are filed -/

/-- Each link that references an id is filed under it, unless the id is spent: then the links filed under
it may have been forgotten. -/
structure Filed (s : Store) : Prop where
  sound : s.Sound
  files : ∀ {id}, ¬ s.Spent id → s.Files id

namespace Filed

/-- In a store without atoms all links are filed. -/
theorem empty (limit : Option Nat) : (Store.empty limit).Filed where
  sound := .empty limit
  files _ := fun x => iff_of_false (Index.mem_ids_empty _ x) (by simp [get?_empty])

/-- The links to a live atom are all filed under its id. -/
theorem files_of_contains (h : s.Filed) (hid : s.contains id = true) : s.Files id := by
  refine h.files fun hspent => ?_
  rw [contains, hspent.2] at hid
  exact Bool.false_ne_true hid

/-- A change files what it makes and takes out what it deletes. -/
theorem change (hs : s.Filed) (h : s.Change after) : after.Filed where
  sound := h.sound hs.sound
  files := by
    intro id hid
    -- An id that is not spent now was not spent before.
    have hfiles : s.Files id := hs.files fun hspent => hid (h.later.spent hspent)
    cases h with
    | placed kind shape => exact hfiles.place hs.sound kind shape
    | @deleted a ha =>
      refine hfiles.without ha fun heq => hid ?_
      rw [heq]
      exact ⟨hs.sound.issued ha, by rw [get?_without, if_pos rfl]⟩
    | reserved => exact hfiles
    | revalued h => exact h.files hfiles

/-- Through all changes the links to live atoms and to ids to come stay filed. -/
theorem evolves (hs : s.Filed) (h : s.Evolves after) : after.Filed := by
  induction h with
  | refl => exact hs
  | tail _ hchange ih => exact ih.change hchange

end Filed

end BeliefGraph.Store
