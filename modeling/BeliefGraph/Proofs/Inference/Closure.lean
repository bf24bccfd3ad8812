import Mathlib.Algebra.Ring.Nat
import Mathlib.Data.List.Perm.Subperm
import BeliefGraph.Inference.Forward
import BeliefGraph.Proofs.Store.History
import BeliefGraph.Space.Basic

/-!
# Forward chaining computes the closure of paths

What a store states is read off its links of two references: `Store.States`. A walk along statements,
each of which starts where the one before it ends, makes a statement of its own: that the first kind
leads from the first source to the last target. A round of forward chaining adds what walks of two
statements make, so rounds double the length of the walks that are covered. A walk that comes back to
one of its statements can be cut short there, so no more than as many statements as there are edges
are ever needed.

The conclusions of a round come first (`Store.mem_conclusions`), then what the store states once they
are made, and then the induction over rounds.
-/

namespace BeliefGraph

/-! ## Statements and walks -/

/-- A store states that one id leads to another by an inheritance or implication link with these two
references. -/
def Store.States (s : Store) (t : Statement) : Prop :=
  (t.kind = .inheritance ∨ t.kind = .implication) ∧
    ∃ a ∈ s.atoms, a.kind = t.kind ∧ a.shape = .link [t.source, t.target]

/-- What two statements make that meet: the first kind leads from the first source to the second
target. -/
def Statement.join (t u : Statement) : Statement := ⟨t.kind, t.source, u.target⟩

/-- The statement that a walk along some statements makes. -/
inductive Walk (T : Statement → Prop) : Statement → List Statement → Prop
  | single {t : Statement} (h : T t) : Walk T t [t]
  | cons {t u : Statement} {path : List Statement} (first : T t) (meets : t.target = u.source)
      (rest : Walk T u path) : Walk T (t.join u) (t :: path)

namespace Walk

variable {T : Statement → Prop} {t u : Statement} {path other : List Statement}

/-- A walk has at least one statement. -/
theorem length_pos (h : Walk T t path) : 1 ≤ path.length := by
  cases h <;> simp

/-- A walk is along statements that hold. -/
theorem subset (h : Walk T t path) : ∀ e ∈ path, T e := by
  induction h with
  | single ht => simpa using ht
  | cons first _ _ ih => simpa using ⟨first, ih⟩

/-- Two walks that meet are one walk. -/
theorem append (h : Walk T t path) (h' : Walk T u other) (meets : t.target = u.source) :
    Walk T (t.join u) (path ++ other) := by
  induction h with
  | single ht => exact .cons ht meets h'
  | @cons e v path first hmeet _ ih =>
    show Walk T (e.join (v.join u)) (e :: (path ++ other))
    exact .cons first hmeet (ih meets)

/-- A walk along statements that a rule on two of them keeps makes one of them. -/
theorem of_closed (h : Walk T t path)
    (closed : ∀ t u, T t → T u → t.target = u.source → T (t.join u)) : T t := by
  induction h with
  | single ht => exact ht
  | cons first meets _ ih => exact closed _ _ first ih meets

/-- A walk whose statements are made by walks is made by the walk along all of these. -/
theorem flatten {T' : Statement → Prop} (n : Nat) (h : Walk T' t path)
    (hT : ∀ t, T' t → ∃ piece, Walk T t piece ∧ piece.length ≤ n) :
    ∃ whole, Walk T t whole ∧ whole.length ≤ n * path.length := by
  induction h with
  | @single t ht =>
    obtain ⟨piece, hpiece, hn⟩ := hT t ht
    exact ⟨piece, hpiece, by simpa using hn⟩
  | @cons t u path first meets rest ih =>
    obtain ⟨piece, hpiece, hn⟩ := hT t first
    obtain ⟨whole, hwhole, hlen⟩ := ih
    refine ⟨piece ++ whole, hpiece.append hwhole meets, ?_⟩
    rw [List.length_append, List.length_cons, Nat.mul_succ]
    omega

/-- Statements taken two at a time halve a walk. -/
theorem halve {T' : Statement → Prop} (hT : ∀ t, T t → T' t)
    (hjoin : ∀ t u, T t → T u → t.target = u.source → T' (t.join u)) :
    ∀ (n : Nat) {t : Statement} {path : List Statement}, Walk T t path → path.length ≤ 2 * n →
      ∃ half, Walk T' t half ∧ half.length ≤ n := by
  -- The induction is on the bound: a step takes two statements from the walk and one from the bound.
  intro n
  induction n with
  | zero =>
    intro t path h hlen
    have := h.length_pos
    omega
  | succ n ih =>
    intro t path h hlen
    cases h with
    | single ht => exact ⟨[t], .single (hT t ht), by simp⟩
    | @cons t u path first meets rest =>
      cases rest with
      | single hu => exact ⟨[t.join u], .single (hjoin t u first hu meets), by simp⟩
      | @cons u v path second meets' rest =>
        obtain ⟨half, hhalf, hn⟩ := ih rest (by simp only [List.length_cons] at hlen; omega)
        refine ⟨t.join u :: half, ?_, by simpa using hn⟩
        show Walk T' ((t.join u).join v) (t.join u :: half)
        exact .cons (hjoin t u first second meets) meets' hhalf

/-- The part of a walk from one of its statements on. -/
theorem drop_of_mem {e : Statement} (h : Walk T t path) (he : e ∈ path) :
    ∃ rest, (e :: rest) <:+ path ∧ Walk T (e.join t) (e :: rest) := by
  induction h with
  | @single t ht =>
    obtain rfl := List.mem_singleton.mp he
    exact ⟨[], List.suffix_rfl, .single ht⟩
  | @cons t u path first meets rest ih =>
    rcases List.mem_cons.mp he with rfl | he
    · refine ⟨path, List.suffix_rfl, ?_⟩
      show Walk T (e.join u) (e :: path)
      exact .cons first meets rest
    · obtain ⟨tail, hsuffix, hwalk⟩ := ih he
      exact ⟨tail, hsuffix.trans (List.suffix_cons t path), hwalk⟩

/-- What a walk makes is made by one that passes no statement twice. -/
theorem exists_nodup (h : Walk T t path) : ∃ short, Walk T t short ∧ short.Nodup := by
  induction h with
  | @single t ht => exact ⟨[t], .single ht, by simp⟩
  | @cons t u path first meets rest ih =>
    obtain ⟨short, hshort, hnodup⟩ := ih
    by_cases ht : t ∈ short
    · -- The walk comes back to its first statement: go on from there.
      obtain ⟨tail, hsuffix, hwalk⟩ := hshort.drop_of_mem ht
      exact ⟨t :: tail, hwalk, hnodup.sublist hsuffix.sublist⟩
    · exact ⟨t :: short, .cons first meets hshort, List.nodup_cons.mpr ⟨ht, hnodup⟩⟩

end Walk

/-! ## The conclusions of a round -/

/-- The edge that an atom is, by its kind and shape. -/
theorem Edge.ofAtom?_eq_some {a : Atom} {e : Edge} :
    Edge.ofAtom? a = some e ↔
      (e.statement.kind = .inheritance ∨ e.statement.kind = .implication) ∧ a.kind = e.statement.kind ∧
        a.shape = .link [e.statement.source, e.statement.target] ∧ a.id = e.link ∧ a.truth = e.truth := by
  obtain ⟨id, kind, shape, truth, attention⟩ := a
  obtain ⟨link, ⟨k, source, target⟩, value⟩ := e
  have hchain : kind.isChainable = true ↔ kind = .inheritance ∨ kind = .implication := by
    cases kind <;> simp [Kind.isChainable]
  simp only [ofAtom?, Atom.outgoing]
  split
  · next hkind houtgoing =>
    cases shape with
    | node label => simp [Shape.outgoing] at houtgoing
    | link outgoing =>
      simp only [Shape.outgoing] at houtgoing
      subst houtgoing
      simp only [Option.some.injEq, Edge.mk.injEq, Statement.mk.injEq, Shape.link.injEq,
        List.cons.injEq, and_true]
      have := hchain.mp hkind
      constructor
      · rintro ⟨rfl, ⟨rfl, rfl, rfl⟩, rfl⟩
        exact ⟨this, rfl, ⟨rfl, rfl⟩, rfl, rfl⟩
      · rintro ⟨-, rfl, ⟨rfl, rfl⟩, rfl, rfl⟩
        exact ⟨rfl, ⟨rfl, rfl, rfl⟩, rfl⟩
  · next hnone =>
    simp only [reduceCtorEq, false_iff]
    rintro ⟨hk, rfl, rfl, -, -⟩
    exact hnone source target (hchain.mpr hk) rfl

namespace Store

variable {s : Store}

/-- An edge of a store is what one of its atoms states. -/
theorem mem_edges {e : Edge} : e ∈ s.edges ↔ ∃ a ∈ s.atoms, Edge.ofAtom? a = some e := by
  rw [edges, List.mem_filterMap]

/-- What a store states is what its edges state. -/
theorem states_iff_edge {t : Statement} : s.States t ↔ ∃ e ∈ s.edges, e.statement = t := by
  constructor
  · rintro ⟨hkind, a, ha, hak, hshape⟩
    exact ⟨⟨a.id, t, a.truth⟩,
      mem_edges.mpr ⟨a, ha, Edge.ofAtom?_eq_some.mpr ⟨hkind, hak, hshape, rfl, rfl⟩⟩, rfl⟩
  · rintro ⟨e, he, rfl⟩
    obtain ⟨a, ha, hedge⟩ := mem_edges.mp he
    obtain ⟨hkind, hak, hshape, -, -⟩ := Edge.ofAtom?_eq_some.mp hedge
    exact ⟨hkind, a, ha, hak, hshape⟩

/-- Two edges of one link are the same. -/
theorem Sound.edge_eq (hs : s.Sound) {e f : Edge} (he : e ∈ s.edges) (hf : f ∈ s.edges)
    (h : e.link = f.link) : e = f := by
  obtain ⟨a, ha, hae⟩ := mem_edges.mp he
  obtain ⟨b, hb, hbf⟩ := mem_edges.mp hf
  have hid : a.id = b.id := by
    rw [(Edge.ofAtom?_eq_some.mp hae).2.2.2.1, (Edge.ofAtom?_eq_some.mp hbf).2.2.2.1, h]
  have hab : a = b := by
    have ha := hs.mem_atoms.mp ha
    rw [hid, hs.mem_atoms.mp hb] at ha
    exact (Option.some.inj ha).symm
  rw [hab, hbf] at hae
  exact (Option.some.inj hae).symm

end Store

/-- The edges that start at an id, in order. -/
theorem Edge.getD_bySource (edges : List Edge) (x : Id) :
    (Edge.bySource edges)[x]?.getD [] = edges.filter (·.source == x) := by
  induction edges with
  | nil => simp [bySource]
  | cons e edges ih =>
    simp only [bySource, List.foldr_cons] at ih ⊢
    rw [Std.TreeMap.getElem?_alter, List.filter_cons]
    by_cases hx : e.source = x
    · subst hx
      simp [ih]
    · have hne : compare e.source x ≠ .eq := fun h => hx (Std.LawfulEqCmp.eq_of_compare h)
      simp [hx, hne, ih]

/-- Exactly the statements that are not known are concluded. -/
theorem Conclusion.mem_fresh {known : Std.TreeSet Statement} {cs : List Conclusion}
    {t : Statement} :
    t ∈ (Conclusion.fresh known cs).map Conclusion.statement ↔
      t ∉ known ∧ t ∈ cs.map Conclusion.statement := by
  induction cs generalizing known with
  | nil => simp [fresh]
  | cons c cs ih =>
    rw [fresh, List.map_cons, List.mem_cons]
    -- What is known already is skipped; what is new is known from here on.
    by_cases hc : c.statement ∈ known
    · rw [if_pos hc, ih]
      constructor
      · rintro ⟨hnew, ht⟩
        exact ⟨hnew, .inr ht⟩
      · rintro ⟨hnew, rfl | ht⟩
        · exact absurd hc hnew
        · exact ⟨hnew, ht⟩
    · rw [if_neg hc, List.map_cons, List.mem_cons, ih, Std.TreeSet.mem_insert,
        Std.LawfulEqCmp.compare_eq_iff_eq]
      by_cases ht : t = c.statement
      · simp [ht, hc]
      · simp [ht, Ne.symm ht]

/-- A round concludes what two edges make that no edge states. With a target the first edge has to touch
it. -/
theorem Store.mem_conclusions_toward {s : Store} (hs : s.Sound) {target : Option Id}
    {t : Statement} :
    t ∈ (s.conclusions target).map Conclusion.statement ↔
      ¬ s.States t ∧ ∃ e ∈ s.edges, e.startsToward target = true ∧
        ∃ f ∈ s.edges, e.target = f.source ∧ t = e.statement.join f.statement := by
  have hknown : t ∈ Std.TreeSet.ofList (s.edges.map Edge.statement) ↔ s.States t := by
    rw [Std.TreeSet.mem_ofList, List.contains_iff_mem, List.mem_map, states_iff_edge]
  rw [conclusions, Conclusion.mem_fresh, hknown]
  refine and_congr_right fun hnew => ?_
  simp only [List.mem_map, List.mem_flatMap, List.mem_filter, Edge.getD_bySource, bne_iff_ne,
    beq_iff_eq]
  constructor
  · rintro ⟨_, ⟨e, ⟨he, hstarts⟩, f, ⟨⟨hf, hmeets⟩, -⟩, rfl⟩, rfl⟩
    exact ⟨e, he, hstarts, f, hf, hmeets.symm, rfl⟩
  · rintro ⟨e, he, hstarts, f, hf, hmeets, rfl⟩
    refine ⟨Conclusion.ofEdges e f, ⟨e, ⟨he, hstarts⟩, f, ⟨⟨hf, hmeets.symm⟩, ?_⟩, rfl⟩, rfl⟩
    intro hlink
    -- One link on both sides is a loop, and it already states what it makes with itself.
    have hef : e = f := hs.edge_eq he hf hlink.symm
    subst hef
    exact hnew (states_iff_edge.mpr ⟨e, he, rfl⟩)

/-- A round without a target concludes what two statements make and no edge states. -/
theorem Store.mem_conclusions {s : Store} (hs : s.Sound) {t : Statement} :
    t ∈ (s.conclusions none).map Conclusion.statement ↔
      ¬ s.States t ∧ ∃ u v, s.States u ∧ s.States v ∧ u.target = v.source ∧ t = u.join v := by
  rw [mem_conclusions_toward hs]
  refine and_congr_right fun _ => ?_
  constructor
  · rintro ⟨e, he, -, f, hf, hmeets, rfl⟩
    exact ⟨e.statement, f.statement, states_iff_edge.mpr ⟨e, he, rfl⟩,
      states_iff_edge.mpr ⟨f, hf, rfl⟩, hmeets, rfl⟩
  · rintro ⟨u, v, hu, hv, hmeets, rfl⟩
    obtain ⟨e, he, rfl⟩ := states_iff_edge.mp hu
    obtain ⟨f, hf, rfl⟩ := states_iff_edge.mp hv
    exact ⟨e, he, rfl, f, hf, hmeets, rfl⟩

/-! ## The store after a round -/

namespace Store

/-- A store that inference can start from: it is sound and has no limit. -/
structure Open (s : Store) : Prop where
  sound : s.Sound
  unlimited : s.limit = none

/-- Making a link for a chainable statement adds what it states. -/
theorem Open.derive {s : Store} (hs : s.Open) {c : Conclusion}
    (hc : c.statement.kind = .inheritance ∨ c.statement.kind = .implication) :
    ∃ a after, s.derive c.statement.kind (.link [c.statement.source, c.statement.target]) c.truth
        = .ok (a, after) ∧
      after.Open ∧ ∀ t, after.States t ↔ s.States t ∨ t = c.statement := by
  let shape : Shape := .link [c.statement.source, c.statement.target]
  let after := (s.place c.statement.kind shape).modify s.nextId (fun _ => c.truth) fun x => x
  have hsound : after.Sound := (hs.sound.place _ _).modify _ _ _
  refine ⟨{ Atom.new s.nextId c.statement.kind shape with truth := c.truth }, after, ?_,
    ⟨hsound, hs.unlimited⟩, ?_⟩
  · rw [Store.derive, create_of_unlimited hs.unlimited]
    rfl
  · intro t
    have hnew : s.get? s.nextId = none := hs.sound.get?_of_le (Nat.le_refl _)
    simp only [States, hsound.mem_atoms, hs.sound.mem_atoms]
    constructor
    · rintro ⟨hkind, a, ha, hak, hshape⟩
      rw [get?_place_modify] at ha
      split at ha
      · cases ha
        obtain ⟨hsource, htarget⟩ :
            c.statement.source = t.source ∧ c.statement.target = t.target := by
          simpa [shape] using hshape
        right
        -- The new link states the conclusion and nothing else.
        show (⟨t.kind, t.source, t.target⟩ : Statement) = c.statement
        rw [← hak, ← hsource, ← htarget]
      · exact .inl ⟨hkind, a, ha, hak, hshape⟩
    · rintro (⟨hkind, a, ha, hak, hshape⟩ | rfl)
      · -- An old atom keeps its id, which is not the next one.
        refine ⟨hkind, a, ?_, hak, hshape⟩
        rw [get?_place_modify, if_neg, ha]
        intro hid
        rw [hid, hnew] at ha
        simp at ha
      · refine ⟨hc, ⟨s.nextId, c.statement.kind, shape, c.truth, Attention.none⟩, ?_, rfl, rfl⟩
        rw [get?_place_modify, if_pos rfl]

/-- A store without a limit takes all conclusions. -/
theorem Open.ofConclusions {s : Store} (hs : s.Open) {cs : List Conclusion}
    (hcs : ∀ c ∈ cs, c.statement.kind = .inheritance ∨ c.statement.kind = .implication) :
    (Growth.ofConclusions s cs).failure = none ∧ (Growth.ofConclusions s cs).store.Open ∧
      ∀ t, (Growth.ofConclusions s cs).store.States t ↔
        s.States t ∨ t ∈ cs.map Conclusion.statement := by
  induction cs generalizing s with
  | nil => exact ⟨rfl, hs, by simp [Growth.ofConclusions]⟩
  | cons c cs ih =>
    obtain ⟨a, after, hderive, hopen, hstates⟩ := hs.derive (hcs c List.mem_cons_self)
    obtain ⟨hok, hopen', hstates'⟩ := ih hopen fun d hd => hcs d (List.mem_cons_of_mem c hd)
    rw [Growth.ofConclusions, hderive]
    refine ⟨hok, hopen', fun t => ?_⟩
    rw [List.map_cons, List.mem_cons, ← or_assoc, ← hstates]
    exact hstates' t

end Store

/-! ## Rounds -/

namespace Progress

/-- What a store states after a round: what it stated, and what two statements made. -/
theorem states_assert {p : Progress} (hp : p.store.Open) :
    (p.assert (p.store.conclusions none)).failure = none ∧
      (p.assert (p.store.conclusions none)).store.Open ∧
      ∀ t, (p.assert (p.store.conclusions none)).store.States t ↔
        ∃ path, Walk p.store.States t path ∧ path.length ≤ 2 := by
  have hkinds : ∀ c ∈ p.store.conclusions none,
      c.statement.kind = .inheritance ∨ c.statement.kind = .implication := by
    intro c hc
    obtain ⟨-, u, v, hu, -, -, hjoin⟩ :=
      (Store.mem_conclusions hp.sound).mp (List.mem_map_of_mem hc)
    rw [hjoin]
    exact hu.1
  obtain ⟨hok, hopen, hstates⟩ := hp.ofConclusions hkinds
  refine ⟨hok, hopen, fun t => (hstates t).trans ?_⟩
  rw [Store.mem_conclusions hp.sound]
  constructor
  · rintro (ht | ⟨-, u, v, hu, hv, hmeets, rfl⟩)
    · exact ⟨[t], .single ht, by simp⟩
    · exact ⟨[u, v], .cons hu hmeets (.single hv), by simp⟩
  · rintro ⟨path, hwalk, hlen⟩
    -- A walk of one statement is an old one, and a walk of two is what the round concludes.
    by_cases ht : p.store.States t
    · exact .inl ht
    · refine .inr ⟨ht, ?_⟩
      cases hwalk with
      | single hs => exact absurd hs ht
      | @cons u v rest hu hmeets hrest =>
        have := hrest.length_pos
        cases hrest with
        | single hv => exact ⟨u, v, hu, hv, hmeets, rfl⟩
        | cons _ _ hrest =>
          have := hrest.length_pos
          simp only [List.length_cons] at hlen
          omega

/-- Walks along what two statements make, and half as long, make the same. -/
theorem walk_after_round {T T' : Statement → Prop}
    (h : ∀ t, T' t ↔ ∃ path, Walk T t path ∧ path.length ≤ 2) (n : Nat) (t : Statement) :
    (∃ path, Walk T' t path ∧ path.length ≤ n) ↔ ∃ path, Walk T t path ∧ path.length ≤ 2 * n := by
  constructor
  · rintro ⟨path, hwalk, hn⟩
    obtain ⟨whole, hwhole, hlen⟩ := hwalk.flatten 2 fun t => (h t).mp
    exact ⟨whole, hwhole, by omega⟩
  · rintro ⟨path, hwalk, hn⟩
    refine hwalk.halve (fun t ht => (h t).mpr ⟨[t], .single ht, by simp⟩) ?_ n hn
    intro t u ht hu hmeets
    exact (h _).mpr ⟨[t, u], .cons ht hmeets (.single hu), by simp⟩

/-- Rounds cover the walks of up to two to the power of their number. -/
theorem forward_states {p : Progress} (hp : p.store.Open) (hok : p.failure = none) (rounds : Nat) :
    (p.forward none rounds).failure = none ∧
      ∀ t, (p.forward none rounds).store.States t ↔
        ∃ path, Walk p.store.States t path ∧ path.length ≤ 2 ^ rounds := by
  induction rounds generalizing p with
  | zero =>
    -- A walk of length one is one statement.
    refine ⟨hok, fun t => ⟨fun ht => ⟨[t], .single ht, by simp⟩, ?_⟩⟩
    rintro ⟨path, hwalk, hlen⟩
    cases hwalk with
    | single ht => exact ht
    | cons _ _ hrest =>
      have := hrest.length_pos
      simp only [List.length_cons, pow_zero] at hlen
      omega
  | succ rounds ih =>
    have hq : p.beginForwardRound.store.Open := hp
    rw [forward]
    split
    · next hnone =>
      -- Nothing is concluded, so what is stated is closed under walks.
      refine ⟨hok, fun t => ⟨fun ht => ⟨[t], .single ht, Nat.one_le_two_pow⟩, ?_⟩⟩
      rintro ⟨path, hwalk, -⟩
      refine hwalk.of_closed fun t u ht hu hmeets => ?_
      by_contra hnew
      have := (Store.mem_conclusions hq.sound).mpr ⟨hnew, t, u, ht, hu, hmeets, rfl⟩
      rw [hnone] at this
      simp at this
    · obtain ⟨hok', hopen, hstates⟩ := states_assert hq
      simp only [hok', Option.isSome_none, if_neg Bool.false_ne_true]
      obtain ⟨hok'', hwalks⟩ := ih hopen hok'
      refine ⟨hok'', fun t => (hwalks t).trans ?_⟩
      rw [walk_after_round hstates, ← pow_succ']
      exact Iff.rfl

end Progress

/-! ## The closure -/

/-- No more statements than there are edges are needed to make what a walk makes. -/
theorem Walk.exists_length_le {s : Store} {t : Statement} {path : List Statement}
    (h : Walk s.States t path) : ∃ short, Walk s.States t short ∧ short.length ≤ s.edges.length := by
  obtain ⟨short, hshort, hnodup⟩ := h.exists_nodup
  refine ⟨short, hshort, ?_⟩
  have hsub : short ⊆ s.edges.map Edge.statement := by
    intro e he
    exact List.mem_map.mpr (Store.states_iff_edge.mp (hshort.subset e he))
  have := (hnodup.subperm hsub).length_le
  rwa [List.length_map] at this

/-- Chaining forward through a store without a limit does not fail, and what the store states then is
what walks make along what it stated before: those of up to two to the power of the rounds, and all
walks once that is as many as there are edges. -/
theorem Space.forward_states_closure (space : Space) (rounds : Nat) (hs : space.store.Reachable)
    (hlimit : space.store.limit = none) :
    (space.forward none rounds).1.isOk = true ∧
      (∀ t, (space.forward none rounds).2.store.States t ↔
        ∃ path, Walk space.store.States t path ∧ 1 ≤ path.length ∧ path.length ≤ 2 ^ rounds) ∧
      (space.store.edges.length ≤ 2 ^ rounds → ∀ t,
        (space.forward none rounds).2.store.States t ↔ ∃ path, Walk space.store.States t path) := by
  have hopen : space.startRun.store.Open := ⟨hs.sound, hlimit⟩
  obtain ⟨hok, hstates⟩ := Progress.forward_states hopen rfl rounds
  refine ⟨?_, fun t => (hstates t).trans ?_, fun hlong t => (hstates t).trans ?_⟩
  · rw [forward, finishRun, Progress.result, hok]
    rfl
  · constructor
    · rintro ⟨path, hwalk, hlen⟩
      exact ⟨path, hwalk, hwalk.length_pos, hlen⟩
    · rintro ⟨path, hwalk, -, hlen⟩
      exact ⟨path, hwalk, hlen⟩
  · constructor
    · rintro ⟨path, hwalk, -⟩
      exact ⟨path, hwalk⟩
    · rintro ⟨path, hwalk⟩
      obtain ⟨short, hshort, hlen⟩ := hwalk.exists_length_le
      exact ⟨short, hshort, hlen.trans hlong⟩

/-! ## Spaces of a few links -/

/-- Two links that meet, of which the first references the id that is handed out next. -/
def Space.crossing : Space :=
  { Space.ofSettings {} with
    store := ((Store.empty none).run
      [.createLink .inheritance ⟨[2, 3], by decide, by decide⟩,
        .createLink .inheritance ⟨[3, 9], by decide, by decide⟩]).2 }

/-- Three nodes, and links of both kinds that go round them. -/
def Space.threeInACircle : Space :=
  { Space.ofSettings {} with
    store := ((Store.empty none).run
      [.createNode .concept none, .createNode .concept none, .createNode .concept none,
        .createLink .inheritance ⟨[1, 2], by decide, by decide⟩,
        .createLink .implication ⟨[2, 3], by decide, by decide⟩,
        .createLink .inheritance ⟨[3, 1], by decide, by decide⟩]).2 }

/-- A link, and a link of another kind that goes on from where it ends. No atom has their ends. -/
def Space.twoLinks : Space :=
  { Space.ofSettings {} with
    store := ((Store.empty none).run
      [.createLink .inheritance ⟨[7, 8], by decide, by decide⟩,
        .createLink .implication ⟨[8, 9], by decide, by decide⟩]).2 }

/-- One round joins the two links. -/
theorem Space.forward_states_twoLinks :
    twoLinks.store.Reachable ∧ twoLinks.store.limit = none ∧
      (twoLinks.forward none 1).1.isOk = true ∧
      (twoLinks.forward none 1).2.store.States ⟨.inheritance, 7, 9⟩ := by
  have hs : twoLinks.store.Reachable := ⟨none, _, rfl⟩
  have hlimit : twoLinks.store.limit = none := rfl
  obtain ⟨hok, hstates, -⟩ := Space.forward_states_closure twoLinks 1 hs hlimit
  have hfirst : twoLinks.store.States ⟨.inheritance, 7, 8⟩ :=
    ⟨.inl rfl, Atom.new 1 .inheritance (.link [7, 8]), hs.sound.mem_atoms.mpr rfl, rfl, rfl⟩
  have hsecond : twoLinks.store.States ⟨.implication, 8, 9⟩ :=
    ⟨.inr rfl, Atom.new 2 .implication (.link [8, 9]), hs.sound.mem_atoms.mpr rfl, rfl, rfl⟩
  have hwalk := Walk.cons hfirst rfl (.single hsecond)
  exact ⟨hs, hlimit, hok, (hstates _).mpr ⟨_, hwalk, by decide, by decide⟩⟩

end BeliefGraph
