import Mathlib.Data.List.Forall2
import BeliefGraph.Proofs.Store.History

/-!
# Patterns as trees laid over a store

A pattern is a tree, and its positions are the paths from the root down to the wildcards. An atom matches
exactly when live atoms can be assigned to all positions, the atom itself to the root, so that each atom is
what its position asks for and references the atoms at the positions below it, one by one
(`Store.Assigns`). The graph may be shared or cyclic; the tree is walked and not the graph.

There is no choice in such an assignment, since each position names the id for the ones below it:
`Store.walk` is the only candidate, and it is an assignment exactly if the atom is accepted
(`Store.Sound.assigns_iff`).
-/

namespace BeliefGraph

namespace Pattern

mutual

/-- What holds of a pattern whenever it holds of its children holds of all patterns. -/
theorem induction {P : Pattern → Prop} (step : ∀ p, (∀ c ∈ p.children, P c) → P p) : ∀ p, P p
  | ⟨_, _, children, _⟩ => step _ (forall_mem_induction step children)

/-- Over the children of a pattern the induction holds for each of them. -/
theorem forall_mem_induction {P : Pattern → Prop} (step : ∀ p, (∀ c ∈ p.children, P c) → P p) :
    ∀ ps : List Pattern, ∀ p ∈ ps, P p
  | [] => List.forall_mem_nil _
  | p :: ps => List.forall_mem_cons.mpr ⟨induction step p, forall_mem_induction step ps⟩

end

/-- What a pattern asks of the atom itself. Neither a link nor a node without a label has a label. -/
structure Suits (p : Pattern) (a : Atom) : Prop where
  kind : ∀ k, p.kind = some k → a.kind = k
  label : ∀ l, p.label = some l → a.shape = .node (some l)
  arity : a.outgoing.length = p.children.length

variable {resolve : Id → Option Atom} {p c q : Pattern} {a : Atom}

/-- What has a label is a node with this label. -/
theorem label_eq_some {a : Atom} {l : String} : a.label = some l ↔ a.shape = .node (some l) := by
  rw [Atom.label]
  cases a.shape <;> simp [Shape.label]

/-- A kind and a label are compared only where the pattern gives them. -/
theorem admits_iff : admits p.kind p.label a = true ↔
    (∀ k, p.kind = some k → a.kind = k) ∧ ∀ l, p.label = some l → a.shape = .node (some l) := by
  simp only [admits, Bool.and_eq_true, Option.all_eq_true, beq_iff_eq, label_eq_some]
  simp only [eq_comm (b := a.kind)]

/-- Patterns in a row accept as many references, each of which resolves to an atom that is accepted. -/
theorem acceptsAll_iff {ps : List Pattern} {ids : List Id} :
    acceptsAll resolve ps ids = true ↔
      List.Forall₂ (fun p id => ∃ a, resolve id = some a ∧ accepts resolve p a = true) ps ids := by
  induction ps generalizing ids with
  | nil => cases ids <;> simp [acceptsAll]
  | cons p ps ih =>
    cases ids with
    | nil => simp [acceptsAll]
    | cons id ids => simp [acceptsAll, Option.any_eq_true, ih]

/-- A wildcard accepts every atom. -/
theorem accepts_of_wildcard (h : p.wildcard = true) (a : Atom) : accepts resolve p a = true := by
  cases p
  simp only at h
  simp [accepts, h]

/-- A pattern without wildcard accepts an atom that suits it if each child accepts what the reference in its
place resolves to. -/
theorem accepts_iff (h : p.wildcard = false) : accepts resolve p a = true ↔
    p.Suits a ∧ ∀ (i : ℕ) (c : Pattern), p.children[i]? = some c →
      ∃ id b, a.outgoing[i]? = some id ∧ resolve id = some b ∧ accepts resolve c b = true := by
  have hunfold : accepts resolve p a
      = (admits p.kind p.label a && acceptsAll resolve p.children a.outgoing) := by
    cases p
    simp only at h
    simp [accepts, h]
  rw [hunfold, Bool.and_eq_true, admits_iff, acceptsAll_iff, List.forall₂_iff_get]
  constructor
  · rintro ⟨⟨hkind, hlabel⟩, hlength, hall⟩
    refine ⟨⟨hkind, hlabel, hlength.symm⟩, fun i c hc => ?_⟩
    obtain ⟨hi, rfl⟩ := List.getElem?_eq_some_iff.mp hc
    obtain ⟨b, hb, haccepts⟩ := hall i hi (hlength ▸ hi)
    exact ⟨_, b, List.getElem?_eq_getElem _, hb, haccepts⟩
  · rintro ⟨⟨hkind, hlabel, hlength⟩, hall⟩
    refine ⟨⟨hkind, hlabel⟩, hlength.symm, fun i hi hi' => ?_⟩
    obtain ⟨id, b, hid, hresolve, haccepts⟩ := hall i _ (List.getElem?_eq_getElem hi)
    rw [List.getElem?_eq_getElem hi'] at hid
    cases hid
    exact ⟨b, hresolve, haccepts⟩

/-- The pattern at the end of a path from the root. A path that leads below a wildcard has none. -/
def at? : Pattern → List ℕ → Option Pattern
  | p, [] => some p
  | p, i :: path => if p.wildcard then none else p.children[i]?.bind fun c => c.at? path

/-- No path leads below a wildcard. -/
theorem at?_cons_of_wildcard (h : p.wildcard = true) (i : ℕ) (path : List ℕ) :
    p.at? (i :: path) = none := by
  rw [at?, if_pos h]

/-- A path leads on from a child of a pattern without wildcard. -/
theorem at?_cons (h : p.wildcard = false) (i : ℕ) (path : List ℕ) :
    p.at? (i :: path) = p.children[i]?.bind fun c => c.at? path := by
  rw [at?, if_neg (by rw [h]; exact Bool.false_ne_true)]

/-- A path goes on where it has led to so far. -/
theorem at?_append (path rest : List ℕ) :
    p.at? (path ++ rest) = (p.at? path).bind fun q => q.at? rest := by
  induction path generalizing p with
  | nil => rfl
  | cons i path ih =>
    rw [List.cons_append]
    cases hp : p.wildcard with
    | true => rw [at?_cons_of_wildcard hp, at?_cons_of_wildcard hp, Option.bind_none]
    | false => simp only [at?_cons hp, Option.bind_assoc, ih]

end Pattern

/-! ## Assignments -/

namespace Store

variable {s : Store} {p q c : Pattern} {x a b : Atom} {σ τ : List ℕ → Option Atom} {i : ℕ}

/-- Live atoms for the positions of a pattern, with an atom at the root. Where the pattern does not have a
wildcard, the atom is what it asks for, and references the atoms at the positions right below. -/
structure Assigns (s : Store) (p : Pattern) (x : Atom) (σ : List ℕ → Option Atom) : Prop where
  positions : ∀ path, (σ path).isSome = (p.at? path).isSome
  live : ∀ path a, σ path = some a → a ∈ s.atoms
  root : σ [] = some x
  suits : ∀ path q a, p.at? path = some q → q.wildcard = false → σ path = some a → q.Suits a
  references : ∀ path q a i b, p.at? path = some q → q.wildcard = false → σ path = some a →
    σ (path ++ [i]) = some b → a.outgoing[i]? = some b.id

/-- The atoms that are met on the way along the positions of a pattern. -/
def walk (s : Store) : Pattern → Atom → List ℕ → Option Atom
  | _, x, [] => some x
  | p, x, i :: path =>
    if p.wildcard then none
    else p.children[i]?.bind fun c => x.outgoing[i]?.bind fun id =>
      (s.get? id).bind fun a => s.walk c a path

/-- The atom at the root of an assignment is live. -/
theorem Assigns.mem (h : s.Assigns p x σ) : x ∈ s.atoms := h.live [] x h.root

/-- There is nothing below a wildcard. -/
theorem assigns_of_wildcard (hp : p.wildcard = true) :
    s.Assigns p x σ ↔ x ∈ s.atoms ∧ σ = s.walk p x := by
  constructor
  · intro h
    refine ⟨h.mem, funext fun path => ?_⟩
    cases path with
    | nil => exact h.root
    | cons i path =>
      -- The assignment has no position below the root, and neither has the walk.
      have hnone := h.positions (i :: path)
      rw [Pattern.at?_cons_of_wildcard hp, Option.isSome_none, Option.isSome_eq_false_iff,
        Option.isNone_iff_eq_none] at hnone
      rw [walk, if_pos hp, hnone]
  · rintro ⟨hx, rfl⟩
    have hroot : ∀ path q, p.at? path = some q → q.wildcard = true := by
      rintro (_ | ⟨i, path⟩) q hq
      · cases hq
        exact hp
      · rw [Pattern.at?_cons_of_wildcard hp] at hq
        exact nomatch hq
    refine ⟨fun path => ?_, fun path a ha => ?_, rfl, fun path q a hq hwild => ?_,
      fun path q a i b hq hwild => ?_⟩
    · cases path with
      | nil => rfl
      | cons i path => rw [Pattern.at?_cons_of_wildcard hp, walk, if_pos hp]; rfl
    · cases path with
      | nil =>
        cases ha
        exact hx
      | cons i path =>
        rw [walk, if_pos hp] at ha
        exact nomatch ha
    all_goals
      rw [hroot path q hq] at hwild
      exact nomatch hwild

/-- The part of an assignment at a child is an assignment for it. -/
theorem Assigns.child (h : s.Assigns p x σ) (hs : s.Sound) (hp : p.wildcard = false)
    (hc : p.children[i]? = some c) :
    ∃ b, x.outgoing[i]? = some b.id ∧ s.get? b.id = some b ∧
      s.Assigns c b fun path => σ (i :: path) := by
  have hat : ∀ path, p.at? (i :: path) = c.at? path := fun path => by
    rw [Pattern.at?_cons hp, hc, Option.bind_some]
  obtain ⟨b, hb⟩ : ∃ b, σ [i] = some b := by
    rw [← Option.isSome_iff_exists, h.positions, hat]
    rfl
  refine ⟨b, h.references [] p x i b rfl hp h.root hb, hs.mem_atoms.mp (h.live _ b hb), ?_⟩
  exact
    { positions := fun path => by rw [h.positions, hat]
      live := fun path => h.live (i :: path)
      root := hb
      suits := fun path q a hq => h.suits (i :: path) q a ((hat path).trans hq)
      references := fun path q a j b hq => h.references (i :: path) q a j b ((hat path).trans hq) }

/-- An assignment is put together from assignments for the children. -/
theorem assigns_of_children (hp : p.wildcard = false) (hx : x ∈ s.atoms) (hroot : σ [] = some x)
    (hsuits : p.Suits x) (hbelow : ∀ i path, p.children[i]? = none → σ (i :: path) = none)
    (hchildren : ∀ i c, p.children[i]? = some c →
      ∃ b, x.outgoing[i]? = some b.id ∧ s.Assigns c b fun path => σ (i :: path)) :
    s.Assigns p x σ := by
  -- Each position below the root belongs to one of the children, and what is asked there the assignment
  -- for this child gives.
  have hcases : ∀ i path a, σ (i :: path) = some a → ∃ c b, p.children[i]? = some c ∧
      x.outgoing[i]? = some b.id ∧ s.Assigns c b fun path => σ (i :: path) := by
    intro i path a ha
    cases hc : p.children[i]? with
    | none =>
      rw [hbelow i path hc] at ha
      exact nomatch ha
    | some c =>
      obtain ⟨b, hb, hassigns⟩ := hchildren i c hc
      exact ⟨c, b, rfl, hb, hassigns⟩
  have hat : ∀ {i c}, p.children[i]? = some c → ∀ path, p.at? (i :: path) = c.at? path :=
    fun hc path => by rw [Pattern.at?_cons hp, hc, Option.bind_some]
  refine ⟨?_, ?_, hroot, ?_, ?_⟩
  · rintro (_ | ⟨i, path⟩)
    · rw [hroot]
      rfl
    · cases hc : p.children[i]? with
      | none => rw [hbelow i path hc, Pattern.at?_cons hp, hc, Option.bind_none]; rfl
      | some c =>
        obtain ⟨b, -, hassigns⟩ := hchildren i c hc
        rw [hat hc, ← hassigns.positions path]
  · rintro (_ | ⟨i, path⟩) a ha
    · rw [hroot] at ha
      cases ha
      exact hx
    · obtain ⟨c, b, -, -, hassigns⟩ := hcases i path a ha
      exact hassigns.live path a ha
  · rintro (_ | ⟨i, path⟩) q a hq hwild ha
    · cases hq
      rw [hroot] at ha
      cases ha
      exact hsuits
    · obtain ⟨c, b, hc, -, hassigns⟩ := hcases i path a ha
      exact hassigns.suits path q a ((hat hc path).symm.trans hq) hwild ha
  · rintro (_ | ⟨i, path⟩) q a j b hq hwild ha hb
    · cases hq
      rw [hroot] at ha
      cases ha
      obtain ⟨c, b', -, hout, hassigns⟩ := hcases j [] b hb
      rw [hout]
      exact congrArg (fun a => some a.id) (Option.some.inj (hassigns.root.symm.trans hb))
    · obtain ⟨c, b', hc, -, hassigns⟩ := hcases i path a ha
      exact hassigns.references path q a j b ((hat hc path).symm.trans hq) hwild ha hb

/-- The walk along the positions is the only candidate for an assignment, and it is one exactly if the
pattern accepts the atom. -/
theorem Sound.assigns_iff (hs : s.Sound) : ∀ (p : Pattern) {x : Atom} {σ : List ℕ → Option Atom},
    s.Assigns p x σ ↔ x ∈ s.atoms ∧ p.accepts s.get? x = true ∧ σ = s.walk p x := by
  refine Pattern.induction fun p ih x σ => ?_
  cases hp : p.wildcard with
  | true => rw [assigns_of_wildcard hp, Pattern.accepts_of_wildcard hp, eq_self, true_and]
  | false =>
    rw [Pattern.accepts_iff hp]
    constructor
    · intro h
      refine ⟨h.mem, ⟨h.suits [] p x rfl hp h.root, fun i c hc => ?_⟩, funext fun path => ?_⟩
      · obtain ⟨b, hb, hget, hassigns⟩ := h.child hs hp hc
        exact ⟨b.id, b, hb, hget, ((ih c (List.mem_of_getElem? hc)).mp hassigns).2.1⟩
      · cases path with
        | nil => exact h.root
        | cons i path =>
          -- Where the pattern has no child there is no position.
          have hbelow : p.children[i]? = none → σ (i :: path) = none := fun hc => by
            have hnone := h.positions (i :: path)
            rwa [Pattern.at?_cons hp, hc, Option.bind_none, Option.isSome_none,
              Option.isSome_eq_false_iff, Option.isNone_iff_eq_none] at hnone
          rw [walk, hp, if_neg Bool.false_ne_true]
          cases hc : p.children[i]? with
          | none => rw [hbelow hc, Option.bind_none]
          | some c =>
            obtain ⟨b, hb, hget, hassigns⟩ := h.child hs hp hc
            have hwalk := ((ih c (List.mem_of_getElem? hc)).mp hassigns).2.2
            rw [Option.bind_some, hb, Option.bind_some, hget, Option.bind_some, ← hwalk]
    · rintro ⟨hx, ⟨hsuits, hchildren⟩, rfl⟩
      have hwalk : ∀ i path, s.walk p x (i :: path) = p.children[i]?.bind fun c =>
          x.outgoing[i]?.bind fun id => (s.get? id).bind fun a => s.walk c a path := fun i path => by
        rw [walk, hp, if_neg Bool.false_ne_true]
      refine assigns_of_children hp hx rfl hsuits (fun i path hc => ?_) fun i c hc => ?_
      · rw [hwalk, hc, Option.bind_none]
      · -- The atom for a child is what the reference in its place resolves to.
        obtain ⟨id, b, hid, hget, haccepts⟩ := hchildren i c hc
        obtain rfl := hs.keyed hget
        refine ⟨b, hid, (ih c (List.mem_of_getElem? hc)).mpr ⟨hs.mem_atoms.mpr hget, haccepts, ?_⟩⟩
        funext path
        rw [hwalk, hc, Option.bind_some, hid, Option.bind_some, hget, Option.bind_some]

/-! ## Matches -/

/-- An atom matches when it is at the root of an assignment. -/
theorem Sound.mem_matching_iff (hs : s.Sound) : x ∈ s.matching p ↔ ∃ σ, s.Assigns p x σ := by
  rw [matching, query, List.mem_filter]
  constructor
  · rintro ⟨hx, haccepts⟩
    exact ⟨s.walk p x, (hs.assigns_iff p).mpr ⟨hx, haccepts, rfl⟩⟩
  · rintro ⟨σ, h⟩
    obtain ⟨hx, haccepts, -⟩ := (hs.assigns_iff p).mp h
    exact ⟨hx, haccepts⟩

/-- A match has one assignment. -/
theorem Sound.assigns_unique (hs : s.Sound) (h : s.Assigns p x σ) (h' : s.Assigns p x τ) : σ = τ := by
  rw [((hs.assigns_iff p).mp h).2.2, ((hs.assigns_iff p).mp h').2.2]

/-- What the atom at a position without wildcard references is live. -/
theorem Assigns.contains (h : s.Assigns p x σ) (hs : s.Sound) {path : List ℕ} {id : Id}
    (hq : p.at? path = some q) (hwild : q.wildcard = false) (ha : σ path = some a)
    (hid : id ∈ a.outgoing) : s.contains id = true := by
  obtain ⟨i, hi, rfl⟩ := List.getElem_of_mem hid
  -- There are as many references as children, so there is a position below this one for the reference.
  have hchild : i < q.children.length := by
    rw [← (h.suits path q a hq hwild ha).arity]
    exact hi
  have hbelow : p.at? (path ++ [i]) = some q.children[i] := by
    rw [Pattern.at?_append, hq, Option.bind_some, Pattern.at?_cons hwild,
      List.getElem?_eq_getElem hchild, Option.bind_some, Pattern.at?]
  obtain ⟨b, hb⟩ : ∃ b, σ (path ++ [i]) = some b := by
    rw [← Option.isSome_iff_exists, h.positions, hbelow, Option.isSome_some]
  have hout := h.references path q a i b hq hwild ha hb
  rw [List.getElem?_eq_getElem hi, Option.some.injEq] at hout
  rw [hout, Store.contains, hs.mem_atoms.mp (h.live _ b hb), Option.isSome_some]

/-- An atom matches a pattern exactly if live atoms can be assigned to the positions of the pattern, the
atom itself to the root, and there is at most one way to do so. The matches are listed by id. Where an atom
at a position without wildcard references an id that no atom has, nothing is assigned, whatever the pattern
asks for there. -/
theorem matching_homomorphism (hs : s.Sound) (p : Pattern) :
    (∀ x, x ∈ s.matching p ↔ ∃ σ, s.Assigns p x σ) ∧
      (∀ x σ τ, s.Assigns p x σ → s.Assigns p x τ → σ = τ) ∧
      (s.matching p).Pairwise ById ∧
      (∀ x id, p.wildcard = false → id ∈ x.outgoing → s.get? id = none → x ∉ s.matching p) ∧
      ∀ x σ path q a id, p.at? path = some q → q.wildcard = false → σ path = some a →
        id ∈ a.outgoing → s.get? id = none → ¬ s.Assigns p x σ := by
  have hdangling : ∀ x σ path q a id, p.at? path = some q → q.wildcard = false → σ path = some a →
      id ∈ a.outgoing → s.get? id = none → ¬ s.Assigns p x σ := by
    intro x σ path q a id hq hwild ha hid hnone h
    have hlive := h.contains hs hq hwild ha hid
    rw [Store.contains, hnone] at hlive
    exact Bool.false_ne_true hlive
  refine ⟨fun x => hs.mem_matching_iff, fun x σ τ => hs.assigns_unique, hs.pairwise_atoms.filter _,
    fun x id hwild hid hnone hx => ?_, hdangling⟩
  obtain ⟨σ, h⟩ := hs.mem_matching_iff.mp hx
  exact hdangling x σ [] p x id rfl hwild h.root hid hnone h

/-- A concept, a list that has it twice and then itself, and a list of it and of an id that no atom has. -/
def listsOfCat : Store :=
  ((empty none).run [.createNode .concept (some "cat"),
    .createLink .list ⟨[1, 1, 2], by decide, by decide⟩,
    .createLink .list ⟨[1, 99], by decide, by decide⟩]).2

/-- A list of the concept, of any atom, and of a list of three. -/
def listInList : Pattern :=
  .link .list [.node .concept "cat", .any, .link .list [.any, .any, .any]]

/-- The list that contains itself stands at the root, as the last child, and at the last wildcard. The list
with a dangling reference does not match, not even a list of two wildcards. -/
theorem matching_homomorphism_listsOfCat :
    listsOfCat.Sound ∧
      (∃ x ∈ listsOfCat.matching listInList, ∃ σ, listsOfCat.Assigns listInList x σ ∧
        [[], [0], [1], [2], [2, 0], [2, 1], [2, 2]].map (fun path => (σ path).map Atom.id)
          = [some 2, some 1, some 1, some 2, some 1, some 1, some 2]) ∧
      ∃ x, listsOfCat.get? 3 = some x ∧ x.outgoing = [1, 99] ∧
        x ∉ listsOfCat.matching (.link .list [.any, .any]) := by
  have hs : listsOfCat.Sound := Reachable.sound ⟨none, _, rfl⟩
  obtain ⟨hmem, -, -, -, -⟩ := matching_homomorphism hs listInList
  obtain ⟨-, -, -, hdangling, -⟩ := matching_homomorphism hs (.link .list [.any, .any])
  have hmatch : Atom.new 2 .list (.link [1, 1, 2]) ∈ listsOfCat.matching listInList := by decide
  obtain ⟨σ, hσ⟩ := (hmem _).mp hmatch
  refine ⟨hs, ⟨_, hmatch, σ, hσ, ?_⟩, Atom.new 3 .list (.link [1, 99]), by rfl, rfl, ?_⟩
  · obtain ⟨-, -, rfl⟩ := (hs.assigns_iff listInList).mp hσ
    rfl
  · exact hdangling _ 99 rfl (by decide) (by rfl)

end Store

end BeliefGraph
