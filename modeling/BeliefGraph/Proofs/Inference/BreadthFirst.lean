import Mathlib.Data.Prod.Lex
import Mathlib.Order.Bounds.Basic
import BeliefGraph.Proofs.Inference.Reachability

/-!
# Backward chaining goes by distance

The distance of an id from a goal is the length of the shortest path of edges that leads to it, where
the goal and all ids on the way are live. A backward search finds the live atoms in layers
(`Store.layer`): the layer of a round has exactly those at the distance of its number
(`Store.Reachable.mem_layer_and_seen`). What a layer has met it does not meet again; ids without an atom
are met too, but no path leads through them.

A layer lists the links by the position at which they lead to the layer before and then by their ids, and
takes each source where it stands first. So an atom stands where the least of its `Store.pointers` does
(`Layer.pairwise_found`). `Store.BreadthFirst` says both of all layers, and what a search finds follows from
it.
-/

namespace BeliefGraph

namespace Store

/-! ## Distances -/

/-- A path of so many links from an id to a goal, over live ids only. -/
inductive LivePath (s : Store) (goal : Id) : Id → Nat → Prop
  | here (live : s.contains goal = true) : LivePath s goal goal 0
  | step {x y : Id} {n : Nat} (live : s.contains x = true) (leads : s.Leads x y)
      (rest : LivePath s goal y n) : LivePath s goal x (n + 1)

/-- The length of the shortest path. -/
def Distance (s : Store) (goal x : Id) (d : Nat) : Prop :=
  IsLeast {n | s.LivePath goal x n} d

/-- Where an id points at a layer: the positions of the atoms that its links lead to, each with the id of
the link, ordered by the position first. -/
def pointers (s : Store) (layer : List Atom) (x : Id) : Set (Nat ×ₗ Id) :=
  {place | ∃ a, layer[(ofLex place).1]? = some a ∧
    ∃ e ∈ s.edges, e.source = x ∧ e.target = a.id ∧ e.link = (ofLex place).2}

variable {s : Store} {goal x y : Id} {d e k n : Nat} {a b : Atom}

/-- A path starts at a live id. -/
theorem LivePath.contains (h : s.LivePath goal x n) : s.contains x = true := by
  cases h with
  | here live => exact live
  | step live _ _ => exact live

/-- A path without links stays at the goal. -/
theorem livePath_zero (hgoal : s.contains goal = true) : s.LivePath goal x 0 ↔ x = goal := by
  constructor
  · intro h
    cases h
    rfl
  · rintro rfl
    exact .here hgoal

/-- An id has one distance from a goal at most. -/
theorem Distance.unique (h : s.Distance goal x d) (h' : s.Distance goal x e) : d = e :=
  IsLeast.unique h h'

/-- An id is one further than the nearest of the ids that it leads to. -/
theorem distance_succ_iff (hx : s.contains x = true) :
    s.Distance goal x (k + 1) ↔
      (∃ y, s.Leads x y ∧ s.Distance goal y k) ∧ ¬ ∃ n ≤ k, s.LivePath goal x n := by
  constructor
  · rintro ⟨hpath, hleast⟩
    have hnone : ¬ ∃ n ≤ k, s.LivePath goal x n := by
      rintro ⟨n, hn, hshort⟩
      exact Nat.not_succ_le_self k ((hleast hshort).trans hn)
    cases hpath with
    | @step _ y _ _ leads rest =>
      refine ⟨⟨y, leads, rest, fun m hm => ?_⟩, hnone⟩
      by_contra hlt
      exact hnone ⟨m + 1, Nat.lt_of_not_le hlt, LivePath.step hx leads hm⟩
  · rintro ⟨⟨y, leads, hpath, -⟩, hnone⟩
    refine ⟨LivePath.step hx leads hpath, fun m hm => ?_⟩
    by_contra hlt
    exact hnone ⟨m, Nat.le_of_lt_succ (Nat.lt_of_not_le hlt), hm⟩

end Store

/-! ## Places in a list -/

/-- The places at which a list has an id. -/
def places {κ : Type} (placed : List (κ × Id)) (x : Id) : Set κ := {place | (place, x) ∈ placed}

section Places

variable {κ : Type} {placed : List (κ × Id)} {place : κ} {x y : Id}

/-- Putting another id in front changes none of the places of an id. -/
theorem places_cons_of_ne (h : x ≠ y) : places ((place, y) :: placed) x = places placed x := by
  ext q
  simp [places, h]

variable [LinearOrder κ]

/-- An id that is put in front of all other places stands there first. -/
theorem isLeast_places_cons_self (h : ∀ p ∈ placed, place < p.1) :
    IsLeast (places ((place, x) :: placed) x) place := by
  refine ⟨List.mem_cons_self, fun q hq => ?_⟩
  rcases List.mem_cons.mp hq with hq | hq
  · exact (Prod.ext_iff.mp hq).1.ge
  · exact (h _ hq).le

/-- In a list that is sorted by places each of its ids has a first place. -/
theorem exists_isLeast_places (hsorted : placed.Pairwise fun p q => p.1 < q.1)
    (hx : x ∈ placed.map Prod.snd) : ∃ place, IsLeast (places placed x) place := by
  induction placed with
  | nil => exact absurd hx List.not_mem_nil
  | cons p placed ih =>
    obtain ⟨place, y⟩ := p
    obtain ⟨hfirst, hsorted⟩ := List.pairwise_cons.mp hsorted
    by_cases hxy : x = y
    · subst hxy
      exact ⟨place, isLeast_places_cons_self hfirst⟩
    · rw [places_cons_of_ne hxy]
      exact ih hsorted ((List.mem_cons.mp hx).resolve_left hxy)

/-- A layer finds atoms in the order of their first places. -/
theorem Layer.pairwise_found {s : Store} (hs : s.Sound)
    (hsorted : placed.Pairwise fun p q => p.1 < q.1) (seen : Std.TreeSet Id) :
    (explore s seen (placed.map Prod.snd)).found.Pairwise fun a b =>
      ∃ m n, IsLeast (places placed a.id) m ∧ IsLeast (places placed b.id) n ∧ m < n := by
  induction placed generalizing seen with
  | nil => exact .nil
  | cons p placed ih =>
    obtain ⟨place, x⟩ := p
    obtain ⟨hfirst, hsorted⟩ := List.pairwise_cons.mp hsorted
    -- What is found behind the first id has another id, so it stands where it stood.
    have hrest : ∀ seen' : Std.TreeSet Id, x ∈ seen' →
        (explore s seen' (placed.map Prod.snd)).found.Pairwise fun a b =>
          ∃ m n, IsLeast (places ((place, x) :: placed) a.id) m ∧
            IsLeast (places ((place, x) :: placed) b.id) n ∧ m < n := by
      intro seen' hmet
      have hne : ∀ {a}, a ∈ (explore s seen' (placed.map Prod.snd)).found → a.id ≠ x := by
        rintro a ha rfl
        exact ((mem_found hs).mp ha).2.2 hmet
      refine (ih hsorted seen').imp_of_mem fun ha hb h => ?_
      rwa [places_cons_of_ne (hne ha), places_cons_of_ne (hne hb)]
    rw [List.map_cons, explore]
    split
    · next hmet => exact hrest seen hmet
    · have hmet : x ∈ seen.insert x := Std.TreeSet.mem_insert_self
      simp only
      split
      · next a ha =>
        refine List.pairwise_cons.mpr ⟨fun b hb => ?_, hrest _ hmet⟩
        obtain ⟨-, hids, hnew⟩ := (mem_found hs).mp hb
        obtain ⟨n, hn⟩ := exists_isLeast_places hsorted hids
        have hne : b.id ≠ x := fun h => hnew (h ▸ hmet)
        rw [hs.keyed ha, places_cons_of_ne hne]
        exact ⟨place, n, isLeast_places_cons_self hfirst, hn, hfirst _ hn.1⟩
      · exact hrest _ hmet

end Places

/-! ## Layers -/

namespace Store

/-- The layers of a search: the goal, and what each round finds. -/
def layer (s : Store) (goal : Id) : Nat → Layer
  | 0 => ⟨(s.get? goal).toList, .ofList [goal]⟩
  | k + 1 => Layer.explore s (s.layer goal k).seen
      (((s.layer goal k).found.map Atom.id).flatMap s.premises)

/-- The premises of a layer with their places. -/
def placedPremises (s : Store) (layer : List Atom) : List ((Nat ×ₗ Id) × Id) :=
  layer.zipIdx.flatMap fun (a, i) =>
    (s.edges.filter (·.target == a.id)).map fun e => (toLex (i, e.link), e.source)

variable {s : Store} {goal x y : Id} {d e k n : Nat} {a b : Atom} {layer : List Atom}

/-- The edges of a store are listed by the ids of their links. -/
theorem Sound.pairwise_edges (hs : s.Sound) : s.edges.Pairwise fun e f => e.link < f.link := by
  rw [edges, List.pairwise_filterMap]
  refine hs.pairwise_atoms.imp fun hlt e he f hf => ?_
  obtain ⟨-, -, -, hlink, -⟩ := Edge.ofAtom?_eq_some.mp he
  obtain ⟨-, -, -, hlink', -⟩ := Edge.ofAtom?_eq_some.mp hf
  rw [← hlink, ← hlink']
  exact hlt

/-- The places at which an id is a premise of a layer are where it points at the layer. -/
theorem places_placedPremises (s : Store) (layer : List Atom) (x : Id) :
    places (s.placedPremises layer) x = s.pointers layer x := by
  ext place
  simp only [places, placedPremises, pointers, Set.mem_ofPred_eq, List.mem_flatMap, List.mem_map,
    List.mem_filter, Prod.exists, List.mk_mem_zipIdx_iff_getElem?, beq_iff_eq, Prod.mk.injEq]
  constructor
  · rintro ⟨a, i, ha, e, ⟨he, htarget⟩, rfl, hsource⟩
    exact ⟨a, ha, e, he, hsource, htarget, rfl⟩
  · rintro ⟨a, ha, e, he, hsource, htarget, hlink⟩
    exact ⟨a, _, ha, e, ⟨he, htarget⟩, by rw [hlink]; rfl, hsource⟩

/-- The premises of a layer are listed by their places. -/
theorem Sound.pairwise_placedPremises (hs : s.Sound) (layer : List Atom) :
    (s.placedPremises layer).Pairwise fun p q => p.1 < q.1 := by
  rw [placedPremises, List.pairwise_flatMap]
  constructor
  · rintro ⟨a, i⟩ -
    rw [List.pairwise_map]
    refine (hs.pairwise_edges.filter _).imp fun hlt => ?_
    exact Prod.Lex.toLex_lt_toLex.mpr (.inr ⟨rfl, hlt⟩)
  · have hpositions : (layer.zipIdx.map Prod.snd).Pairwise (· < ·) := by
      rw [List.zipIdx_map_snd]
      exact List.pairwise_lt_range' 1
    refine (List.pairwise_map.mp hpositions).imp fun hlt p hp q hq => ?_
    obtain ⟨e, -, rfl⟩ := List.mem_map.mp hp
    obtain ⟨f, -, rfl⟩ := List.mem_map.mp hq
    exact Prod.Lex.toLex_lt_toLex.mpr (.inl hlt)

/-- Where the index is exact, the premises that a round looks at are those with places. -/
theorem map_snd_placedPremises
    (hindex : ∀ a ∈ layer, s.incoming a.id = s.scanIncoming a.id) :
    (s.placedPremises layer).map Prod.snd = (layer.map Atom.id).flatMap s.premises := by
  have hpositions : layer.zipIdx.flatMap (fun p => s.premises p.1.id)
      = (layer.map Atom.id).flatMap s.premises := by
    rw [← List.flatMap_map Prod.fst (fun a : Atom => s.premises a.id), List.zipIdx_map_fst,
      List.flatMap_map]
  rw [← hpositions, placedPremises, List.map_flatMap]
  refine List.flatMap_congr fun p hp => ?_
  rw [premises_eq (hindex p.1 (List.fst_mem_of_mem_zipIdx hp)), List.map_map]
  rfl

/-! ### What the layers are -/

/-- An atom of a layer is the live atom with its id. -/
theorem get?_of_mem_layer (hs : s.Sound) (ha : a ∈ (s.layer goal k).found) :
    s.get? a.id = some a := by
  cases k with
  | zero =>
    rw [Store.layer, Option.mem_toList] at ha
    rwa [hs.keyed ha]
  | succ k => exact Layer.get?_of_mem_found hs ha

/-- The ids of a layer are live. -/
theorem contains_of_mem_layer (hs : s.Sound) (ha : a ∈ (s.layer goal k).found) :
    s.contains a.id = true := by
  rw [contains, get?_of_mem_layer hs ha, Option.isSome_some]

/-- In a store that operations lead to, a round looks at the ids that lead to the layer before it. -/
theorem Reachable.mem_premises_layer (hs : s.Reachable) :
    x ∈ ((s.layer goal k).found.map Atom.id).flatMap s.premises
      ↔ ∃ a ∈ (s.layer goal k).found, s.Leads x a.id := by
  rw [List.flatMap_map, List.mem_flatMap]
  refine exists_congr fun a => and_congr_right fun ha => ?_
  exact mem_premises ((hs.files (contains_of_mem_layer hs.sound ha)).incoming_eq hs.sound)

/-- If a layer has the live atoms at its distance, then what leads to it leads to an id at this distance. -/
theorem Reachable.mem_premises_of_distances (hs : s.Reachable)
    (hmem : ∀ a, a ∈ (s.layer goal k).found ↔ s.get? a.id = some a ∧ s.Distance goal a.id k) :
    x ∈ ((s.layer goal k).found.map Atom.id).flatMap s.premises
      ↔ ∃ y, s.Leads x y ∧ s.Distance goal y k := by
  rw [hs.mem_premises_layer]
  constructor
  · rintro ⟨a, ha, hleads⟩
    exact ⟨a.id, hleads, ((hmem a).mp ha).2⟩
  · rintro ⟨y, hleads, hdistance⟩
    obtain ⟨a, ha⟩ := Option.isSome_iff_exists.mp hdistance.1.contains
    obtain rfl := hs.sound.keyed ha
    exact ⟨a, (hmem a).mpr ⟨ha, hdistance⟩, hleads⟩

/-- A layer has the live atoms at its distance, and up to it the live ids at any distance so far have been
met. -/
theorem Reachable.mem_layer_and_seen (hs : s.Reachable) (hgoal : s.contains goal = true) (k : Nat) :
    (∀ a, a ∈ (s.layer goal k).found ↔ s.get? a.id = some a ∧ s.Distance goal a.id k) ∧
      ∀ x, s.contains x = true →
        (x ∈ (s.layer goal k).seen ↔ ∃ n ≤ k, s.LivePath goal x n) := by
  induction k with
  | zero =>
    constructor
    · intro a
      have hzero : s.Distance goal a.id 0 ↔ a.id = goal := by
        rw [← livePath_zero hgoal]
        exact ⟨fun h => h.1, fun h => ⟨h, fun n _ => Nat.zero_le n⟩⟩
      rw [Store.layer, Option.mem_toList, hzero]
      constructor
      · intro ha
        obtain rfl := hs.sound.keyed ha
        exact ⟨ha, rfl⟩
      · rintro ⟨ha, rfl⟩
        exact ha
    · intro x _
      rw [Store.layer, Std.TreeSet.mem_ofList, List.contains_iff_mem, List.mem_singleton,
        ← livePath_zero hgoal]
      simp only [Nat.le_zero_eq, exists_eq_left]
  | succ k ih =>
    obtain ⟨hmem, hseen⟩ := ih
    have hids := fun x => hs.mem_premises_of_distances hmem (x := x)
    constructor
    · intro a
      rw [Store.layer, Layer.mem_found hs.sound]
      refine and_congr_right fun ha => ?_
      have hlive : s.contains a.id = true := by rw [contains, ha, Option.isSome_some]
      rw [hids, hseen a.id hlive, distance_succ_iff hlive]
    · intro x hx
      rw [Store.layer, Layer.mem_seen, hids, hseen x hx]
      constructor
      · rintro (⟨n, hn, hpath⟩ | ⟨y, hleads, hdistance⟩)
        · exact ⟨n, Nat.le_succ_of_le hn, hpath⟩
        · exact ⟨k + 1, Nat.le_refl _, .step hx hleads hdistance.1⟩
      · rintro ⟨n, hn, hpath⟩
        by_cases hshort : ∃ n ≤ k, s.LivePath goal x n
        · exact .inl hshort
        · obtain rfl : n = k + 1 := by
            by_contra hne
            exact hshort ⟨n, by omega, hpath⟩
          have hleast : s.Distance goal x (k + 1) :=
            ⟨hpath, fun m hm => Nat.lt_of_not_le fun hle => hshort ⟨m, hle, hm⟩⟩
          exact .inr ((distance_succ_iff hx).mp hleast).1

/-- The layers of a search by what is in them and in which order. -/
structure BreadthFirst (s : Store) (goal : Id) (layers : Nat → List Atom) : Prop where
  start : (layers 0).map Atom.id = [goal]
  /-- A layer has the live atoms at its distance. -/
  mem : ∀ k a, a ∈ layers k ↔ s.get? a.id = some a ∧ s.Distance goal a.id k
  /-- They are ordered by where they first point at the layer before. -/
  order : ∀ k, (layers (k + 1)).Pairwise fun a b =>
    ∃ m n, IsLeast (s.pointers (layers k) a.id) m ∧ IsLeast (s.pointers (layers k) b.id) n ∧ m < n

/-- The layers of a search have the live atoms by distance, in the order in which they point back. -/
theorem Reachable.breadthFirst (hs : s.Reachable) (hgoal : s.contains goal = true) :
    s.BreadthFirst goal fun k => (s.layer goal k).found where
  start := by
    obtain ⟨a, ha⟩ := Option.isSome_iff_exists.mp hgoal
    simp only [Store.layer, ha, Option.toList_some, List.map_singleton, hs.sound.keyed ha]
  mem k := (hs.mem_layer_and_seen hgoal k).1
  order k := by
    have hindex : ∀ a ∈ (s.layer goal k).found, s.incoming a.id = s.scanIncoming a.id :=
      fun a ha => (hs.files (contains_of_mem_layer hs.sound ha)).incoming_eq hs.sound
    rw [Store.layer, ← map_snd_placedPremises hindex]
    simp only [← places_placedPremises]
    exact Layer.pairwise_found hs.sound (hs.sound.pairwise_placedPremises _) _

/-! ## Searches -/

/-- Behind an empty layer the next one is empty. -/
theorem layer_succ_eq_nil (h : (s.layer goal k).found = []) : (s.layer goal (k + 1)).found = [] := by
  rw [Store.layer, h, List.map_nil, List.flatMap_nil]
  rfl

/-- Behind an empty layer all layers are empty. -/
theorem layer_eq_nil_of_le (h : (s.layer goal k).found = []) (hle : k ≤ n) :
    (s.layer goal n).found = [] := by
  induction hle with
  | refl => exact h
  | step _ ih => exact layer_succ_eq_nil ih

/-- A search from a layer finds the layers behind it, one in each round. -/
theorem found_run_layer (s : Store) (goal : Id) (n k : Nat) :
    (Search.run s n (s.layer goal k).seen ((s.layer goal k).found.map Atom.id)).found
      = (List.range n).flatMap fun i => (s.layer goal (k + 1 + i)).found := by
  induction n generalizing k with
  | zero => rfl
  | succ n ih =>
    have hnext : Layer.explore s (s.layer goal k).seen
        (((s.layer goal k).found.map Atom.id).flatMap s.premises) = s.layer goal (k + 1) := rfl
    rw [Search.run]
    simp only [hnext]
    split
    · next hempty =>
      rw [List.isEmpty_iff] at hempty
      refine (List.flatMap_eq_nil_iff.mpr fun i _ => ?_).symm
      exact layer_eq_nil_of_le hempty (Nat.le_add_right _ i)
    · rw [ih, List.range_succ_eq_map, List.flatMap_cons, List.flatMap_map]
      simp only [Nat.add_zero, Nat.succ_eq_add_one, Nat.add_assoc, Nat.add_comm 1]

/-- What a search finds is the layers behind the goal, one for each of its rounds. -/
theorem Sound.found_backward (hs : s.Sound) (hgoal : s.contains goal = true) (n : Nat) :
    (s.backward goal n).found = (List.range n).flatMap fun k => (s.layer goal (k + 1)).found := by
  obtain ⟨a, ha⟩ := Option.isSome_iff_exists.mp hgoal
  have hrun := found_run_layer s goal n 0
  simp only [Store.layer, ha, Option.toList_some, List.map_singleton, hs.keyed ha] at hrun
  rw [backward, hrun]
  simp only [Nat.zero_add, Nat.add_comm 1]

/-! ### What a search finds -/

/-- A distance is passed on the way from any greater one. -/
theorem Distance.exists_of_le (h : s.Distance goal x d) (hle : k ≤ d) :
    ∃ y, s.Distance goal y k := by
  induction d generalizing x with
  | zero =>
    obtain rfl := Nat.le_zero.mp hle
    exact ⟨x, h⟩
  | succ d ih =>
    rcases Nat.lt_or_eq_of_le hle with hlt | rfl
    · obtain ⟨⟨y, -, hy⟩, -⟩ := (distance_succ_iff h.1.contains).mp h
      exact ih hy (Nat.le_of_lt_succ hlt)
    · exact ⟨x, h⟩

/-- There are no greater distances than live atoms. -/
theorem Distance.lt_size (h : s.Distance goal x d) (hs : s.Sound) : d < s.size := by
  have hsome : ∀ k, k ≤ d → ∃ y, s.Distance goal y k := fun k hle => h.exists_of_le hle
  -- There is an id at each distance up to `d`. These ids are live, and no two of them are the same.
  choose! f hf using hsome
  have hbound : ∀ k ∈ List.range (d + 1), s.Distance goal (f k) k :=
    fun k hk => hf k (Nat.le_of_lt_succ (List.mem_range.mp hk))
  have hnodup : ((List.range (d + 1)).map f).Nodup := by
    refine List.nodup_range.map_on fun j hj k hk hjk => ?_
    exact (hbound j hj).unique (hjk ▸ hbound k hk)
  have hlive : (List.range (d + 1)).map f ⊆ s.atoms.map Atom.id := by
    intro y hy
    obtain ⟨k, hk, rfl⟩ := List.mem_map.mp hy
    exact hs.mem_ids.mpr (hbound k hk).1.contains
  have hlength := (hnodup.subperm hlive).length_le
  rw [List.length_map, List.length_map, List.length_range] at hlength
  rw [size_eq_length_atoms]
  exact hlength

namespace BreadthFirst

variable {layers : Nat → List Atom}

/-- What the first layers behind the goal have. -/
theorem mem_flatMap (h : s.BreadthFirst goal layers) :
    (a ∈ (List.range n).flatMap fun k => layers (k + 1))
      ↔ s.get? a.id = some a ∧ a.id ≠ goal ∧ ∃ d, s.Distance goal a.id d ∧ 1 ≤ d ∧ d ≤ n := by
  simp only [List.mem_flatMap, List.mem_range, h.mem]
  constructor
  · rintro ⟨k, hk, ha, hdistance⟩
    refine ⟨ha, ?_, k + 1, hdistance, Nat.succ_pos k, hk⟩
    rintro rfl
    have hpath : s.LivePath a.id a.id 0 := .here hdistance.1.contains
    exact Nat.not_succ_le_zero k (hdistance.2 hpath)
  · rintro ⟨ha, -, d, hdistance, hpos, hle⟩
    obtain ⟨k, rfl⟩ := Nat.exists_eq_add_of_le' hpos
    exact ⟨k, hle, ha, hdistance⟩

/-- They come by distance, and no id comes twice. -/
theorem pairwise_flatMap (h : s.BreadthFirst goal layers) (n : Nat) :
    ((List.range n).flatMap fun k => layers (k + 1)).Pairwise fun a b =>
      a.id ≠ b.id ∧ ∃ d e, s.Distance goal a.id d ∧ s.Distance goal b.id e ∧ d ≤ e := by
  rw [List.pairwise_flatMap]
  constructor
  · intro k _
    -- Within a layer two atoms differ by where they first point at the layer before.
    refine (h.order k).imp_of_mem ?_
    rintro a b ha hb ⟨i, j, hi, hj, hlt⟩
    refine ⟨fun hid => ?_, k + 1, k + 1, ((h.mem _ _).mp ha).2, ((h.mem _ _).mp hb).2, Nat.le_refl _⟩
    rw [hid] at hi
    exact hlt.ne (hi.unique hj)
  · -- Atoms of two layers differ by their distances.
    refine List.pairwise_lt_range.imp fun hlt a ha b hb => ?_
    have hda := ((h.mem _ _).mp ha).2
    have hdb := ((h.mem _ _).mp hb).2
    refine ⟨fun hid => ?_, _, _, hda, hdb, Nat.succ_le_succ hlt.le⟩
    rw [hid] at hda
    exact hlt.ne (Nat.succ_injective (hda.unique hdb))

/-- Behind as many layers as there are live atoms there is nothing. -/
theorem flatMap_of_size_le (h : s.BreadthFirst goal layers) (hs : s.Sound) (hn : s.size ≤ n) :
    ((List.range n).flatMap fun k => layers (k + 1))
      = (List.range s.size).flatMap fun k => layers (k + 1) := by
  obtain ⟨m, rfl⟩ := Nat.exists_eq_add_of_le hn
  rw [List.range_add, List.flatMap_append, List.flatMap_map]
  refine List.append_right_eq_self.mpr (List.flatMap_eq_nil_iff.mpr fun k _ => ?_)
  refine List.eq_nil_iff_forall_not_mem.mpr fun a ha => ?_
  have hlt := ((h.mem _ _).mp ha).2.lt_size hs
  omega

end BreadthFirst

end Store

namespace Space

/-- Backward chaining from a live goal is breadth-first search in a number of layers. It finds the live atoms
other than the goal up to that distance, each once, by distance, and within a layer by the first position at
which they point at the layer before and then by the least link that does so. With one more round it finds
the same and then one more layer, and with as many rounds as there are live atoms it has found all. -/
theorem backward_breadth_first (space : Space) (goal : Id) (hs : space.store.Reachable)
    (hgoal : space.store.contains goal = true) :
    ∃ layers, space.store.BreadthFirst goal layers ∧ ∀ n, ∃ found,
      (space.backward goal n).1 = .ok found ∧
      found = (List.range n).flatMap (fun k => layers (k + 1)) ∧
      (∀ a, a ∈ found ↔ space.store.get? a.id = some a ∧ a.id ≠ goal ∧
        ∃ d, space.store.Distance goal a.id d ∧ 1 ≤ d ∧ d ≤ n) ∧
      (found.Pairwise fun a b => a.id ≠ b.id ∧
        ∃ d e, space.store.Distance goal a.id d ∧ space.store.Distance goal b.id e ∧ d ≤ e) ∧
      (space.backward goal (n + 1)).1 = .ok (found ++ layers (n + 1)) ∧
      (space.store.size ≤ n → (space.backward goal space.store.size).1 = .ok found) := by
  have hlayers := hs.breadthFirst hgoal
  have hanswer : ∀ n, (space.backward goal n).1
      = .ok ((List.range n).flatMap fun k => (space.store.layer goal (k + 1)).found) := by
    intro n
    rw [← hs.sound.found_backward hgoal, backward, if_pos hgoal]
  refine ⟨_, hlayers, fun n => ⟨_, hanswer n, rfl, fun a => hlayers.mem_flatMap,
    hlayers.pairwise_flatMap n, ?_, fun hn => ?_⟩⟩
  · rw [hanswer, List.range_succ, List.flatMap_append, List.flatMap_singleton]
  · rw [hanswer, hlayers.flatMap_of_size_le hs.sound hn]

/-- Two nodes lead to the last one, and the first one to one of these. Another way from there goes through a
node that was deleted, one is a link of another kind, and one link leads back. -/
def twoLayers : Space :=
  { Space.ofSettings {} with
    store := ((Store.empty none).run
      [.createNode .concept none, .createNode .concept none, .createNode .concept none,
        .createNode .concept none, .createNode .concept none,
        .createLink .inheritance ⟨[3, 5], by decide, by decide⟩,
        .createLink .implication ⟨[2, 5], by decide, by decide⟩,
        .createLink .inheritance ⟨[4, 5], by decide, by decide⟩,
        .createLink .inheritance ⟨[1, 4], by decide, by decide⟩,
        .createLink .inheritance ⟨[1, 3], by decide, by decide⟩,
        .createLink .similarity ⟨[1, 5], by decide, by decide⟩,
        .createLink .inheritance ⟨[5, 1], by decide, by decide⟩,
        .delete 4]).2 }

/-- The first layer is in the order of the links, and the second has the node behind it. -/
theorem backward_breadth_first_twoLayers :
    twoLayers.store.Reachable ∧ twoLayers.store.contains 5 = true ∧
      ∃ found, (twoLayers.backward 5 2).1 = .ok found ∧ found.map Atom.id = [3, 2, 1] ∧
        ∀ a ∈ found, ∃ d, twoLayers.store.Distance 5 a.id d ∧ 1 ≤ d ∧ d ≤ 2 := by
  have hs : twoLayers.store.Reachable := ⟨none, _, rfl⟩
  have hgoal : twoLayers.store.contains 5 = true := by decide
  obtain ⟨layers, -, hrounds⟩ := backward_breadth_first twoLayers 5 hs hgoal
  obtain ⟨found, hfound, -, hmem, -⟩ := hrounds 2
  have hids : (twoLayers.backward 5 2).1.map (List.map Atom.id) = .ok [3, 2, 1] := rfl
  rw [hfound] at hids
  exact ⟨hs, hgoal, found, hfound, Except.ok.inj hids, fun a ha => ((hmem a).mp ha).2.2⟩

end Space

end BeliefGraph
