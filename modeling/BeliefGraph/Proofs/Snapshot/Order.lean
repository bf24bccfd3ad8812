import Mathlib.Tactic.Tauto
import BeliefGraph.Snapshot.Order

/-!
# The order in which links are made

An order that `creationOrder` gives holds the links it was given, and each of them stands behind the
links that it references.
-/

namespace BeliefGraph.Snapshot

/-- A link is ready as soon as each reference that is among the links was taken. -/
theorem isReady_iff {among taken : Std.TreeSet Id} {a : Atom} :
    isReady among taken a = true ↔ ∀ id ∈ a.outgoing, id ∈ among → id ∈ taken := by
  rw [isReady, List.all_eq_true]
  refine forall₂_congr fun id _ => ?_
  rw [Bool.or_eq_true, Bool.not_eq_true', Std.TreeSet.contains_iff_mem, ← Bool.not_eq_true,
    Std.TreeSet.contains_iff_mem]
  exact Decidable.imp_iff_not_or.symm

/-! ## Orders -/

/-- The links that were taken, and some more. -/
def takeAll (taken : Std.TreeSet Id) (links : List Atom) : Std.TreeSet Id :=
  links.foldl (fun taken a => taken.insert a.id) taken

/-- What was taken before, or is one of the links that are taken now. -/
theorem mem_takeAll {taken : Std.TreeSet Id} {links : List Atom} {id : Id} :
    id ∈ takeAll taken links ↔ id ∈ taken ∨ ∃ a ∈ links, a.id = id := by
  rw [takeAll]
  induction links generalizing taken with
  | nil => simp
  | cons a links ih =>
    rw [List.foldl_cons, ih, Std.TreeSet.mem_insert, Std.LawfulEqCmp.compare_eq_iff_eq]
    simp only [List.mem_cons, exists_eq_or_imp]
    tauto

/-- Each link references only such links as were taken in front of it. -/
def InOrder (among : Std.TreeSet Id) : Std.TreeSet Id → List Atom → Prop
  | _, [] => True
  | taken, a :: links => isReady among taken a = true ∧ InOrder among (taken.insert a.id) links

/-- An order stays one when it is cut: the rear half counts the front half as taken. -/
theorem inOrder_append {among taken : Std.TreeSet Id} {front behind : List Atom} :
    InOrder among taken (front ++ behind)
      ↔ InOrder among taken front ∧ InOrder among (takeAll taken front) behind := by
  induction front generalizing taken with
  | nil => simp [InOrder, takeAll]
  | cons a front ih =>
    rw [List.cons_append, InOrder, InOrder, ih, and_assoc]
    rfl

/-- A list is in order exactly if each of its links is ready once those in front of it are taken. -/
theorem inOrder_iff {among taken : Std.TreeSet Id} {links : List Atom} :
    InOrder among taken links ↔ ∀ front a behind, links = front ++ a :: behind →
      isReady among (takeAll taken front) a = true := by
  constructor
  · rintro horder front a behind rfl
    exact (inOrder_append.mp horder).2.1
  · intro h
    induction links generalizing taken with
    | nil => trivial
    | cons a links ih =>
      refine ⟨h [] a links rfl, ih fun front b behind heq => ?_⟩
      exact h (a :: front) b behind (by rw [heq]; rfl)

/-! ## Passes -/

/-- What a pass has taken at its end is what was taken before and the links that it found ready. -/
theorem Pass.run_taken (among taken : Std.TreeSet Id) (links : List Atom) :
    (run among taken links).taken = takeAll taken (run among taken links).ready := by
  induction links generalizing taken with
  | nil => rfl
  | cons a links ih =>
    rw [run]
    split
    · exact ih (taken.insert a.id)
    · exact ih taken

/-- The links that one pass finds ready stand in order. -/
theorem Pass.run_inOrder (among taken : Std.TreeSet Id) (links : List Atom) :
    InOrder among taken (run among taken links).ready := by
  induction links generalizing taken with
  | nil => trivial
  | cons a links ih =>
    rw [run]
    split
    · next hready => exact ⟨hready, ih (taken.insert a.id)⟩
    · exact ih taken

/-- Links that are in order are taken in one pass. -/
theorem Pass.run_of_inOrder {among taken : Std.TreeSet Id} {links : List Atom}
    (h : InOrder among taken links) : run among taken links = ⟨links, [], takeAll taken links⟩ := by
  induction links generalizing taken with
  | nil => rfl
  | cons a links ih =>
    obtain ⟨hready, horder⟩ := h
    rw [run, if_pos hready, ih horder]
    rfl

/-- A pass loses no link. -/
theorem Pass.run_perm (among taken : Std.TreeSet Id) (links : List Atom) :
    ((run among taken links).ready ++ (run among taken links).waiting).Perm links := by
  induction links generalizing taken with
  | nil => exact List.Perm.refl []
  | cons a links ih =>
    rw [run]
    split
    · exact (ih (taken.insert a.id)).cons a
    · exact List.perm_middle.trans ((ih taken).cons a)

/-- Passes that come to an end have taken all links, each behind those that it references. -/
theorem passes_sound {among : Std.TreeSet Id} {n : Nat} {taken : Std.TreeSet Id}
    {links ordered : List Atom} (h : passes among n taken links = .ok ordered) :
    ordered.Perm links ∧ InOrder among taken ordered := by
  induction n generalizing taken links ordered with
  | zero =>
    cases links with
    | nil =>
      cases h
      exact ⟨List.Perm.refl [], trivial⟩
    | cons a links => simp [passes] at h
  | succ n ih =>
    cases links with
    | nil =>
      cases h
      exact ⟨List.Perm.refl [], trivial⟩
    | cons a links =>
      rw [passes] at h
      split at h
      · simp at h
      · cases hrest : passes among n (Pass.run among taken (a :: links)).taken
            (Pass.run among taken (a :: links)).waiting with
        | error id => simp [hrest, Except.map] at h
        | ok rest =>
          -- The passes that follow start from what this one took.
          obtain ⟨hperm, horder⟩ := ih hrest
          rw [hrest] at h
          cases h
          constructor
          · exact (hperm.append_left _).trans (Pass.run_perm among taken (a :: links))
          · rw [inOrder_append, ← Pass.run_taken]
            exact ⟨Pass.run_inOrder among taken (a :: links), horder⟩

/-- An accepted order is a permutation of the links in which each stands behind its references. -/
theorem creationOrder_sound {links ordered : List Atom} (h : creationOrder links = .ok ordered) :
    ordered.Perm links
      ∧ InOrder (Std.TreeSet.ofList (links.map Atom.id)) ∅ ordered :=
  passes_sound h

end BeliefGraph.Snapshot
