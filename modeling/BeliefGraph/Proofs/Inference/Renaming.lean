import Mathlib.Data.Set.Function
import BeliefGraph.Inference.Backward
import BeliefGraph.Proofs.Inference.Growth
import BeliefGraph.Proofs.Snapshot.Recreate
import BeliefGraph.Proofs.Store.Scan

/-!
# Chaining under other names

Chaining sees a store through its edges: it compares the ends of edges with each other and with the
target, and the ids of links with each other and with the target. So if the edges of two stores are the
same, in the same order, but for names that keep these comparisons, both stores conclude the same, and
what they conclude again has the same edges (`Store.Mirrors`).

Links and ends are renamed by two functions. In a run the links made are named by the ids that are next
in each of the stores, and such an id can at the same time be the end of an older edge; as an end it
keeps the name that it had.
-/

namespace BeliefGraph

open Set

/-- The statement between renamed ends. -/
def Statement.rename (f : Id → Id) (t : Statement) : Statement := ⟨t.kind, f t.source, f t.target⟩

/-- The edge with the link and the ends renamed. -/
def Edge.rename (link f : Id → Id) (e : Edge) : Edge := ⟨link e.link, e.statement.rename f, e.truth⟩

def Conclusion.rename (f : Id → Id) (c : Conclusion) : Conclusion := ⟨c.statement.rename f, c.truth⟩

/-- Both ends have names. -/
def Statement.Within (named : Set Id) (t : Statement) : Prop := t.source ∈ named ∧ t.target ∈ named

variable {link f : Id → Id} {named : Set Id}

/-- Statements between ends that have names are told apart under the new names. -/
theorem Statement.rename_inj (hf : InjOn f named) {t u : Statement} (ht : t.Within named)
    (hu : u.Within named) : t.rename f = u.rename f ↔ t = u := by
  constructor
  · intro h
    obtain ⟨kind, source, target⟩ := t
    obtain ⟨kind', source', target'⟩ := u
    simp only [rename, Statement.mk.injEq] at h ⊢
    exact ⟨h.1, hf ht.1 hu.1 h.2.1, hf ht.2 hu.2 h.2.2⟩
  · exact congrArg _

/-! ## The conclusions of a round -/

/-- The conclusions that are new are the same under other names. -/
theorem Conclusion.fresh_rename (hf : InjOn f named) {known known' : Std.TreeSet Statement}
    (hknown : ∀ t, t.Within named → (t.rename f ∈ known' ↔ t ∈ known)) {cs : List Conclusion}
    (hcs : ∀ c ∈ cs, c.statement.Within named) :
    fresh known' (cs.map (rename f)) = (fresh known cs).map (rename f) := by
  induction cs generalizing known known' with
  | nil => rfl
  | cons c cs ih =>
    have hc := hcs c List.mem_cons_self
    have hcs := fun d hd => hcs d (List.mem_cons_of_mem c hd)
    have hstatement : (c.rename f).statement = c.statement.rename f := rfl
    rw [List.map_cons, fresh, fresh, hstatement]
    by_cases hmem : c.statement ∈ known
    · rw [if_pos hmem, if_pos ((hknown _ hc).mpr hmem)]
      exact ih hknown hcs
    · rw [if_neg hmem, if_neg (mt (hknown _ hc).mp hmem), List.map_cons]
      -- The conclusion is known in both runs from here on.
      refine congrArg _ (ih (fun t ht => ?_) hcs)
      simp only [Std.TreeSet.mem_insert, Std.LawfulEqCmp.compare_eq_iff_eq]
      rw [Statement.rename_inj hf hc ht, hknown t ht]

/-- What edges conclude two by two. -/
def Edge.joins (edges : List Edge) (target : Option Id) : List Conclusion :=
  (edges.filter (Edge.startsToward target)).flatMap fun first =>
    ((edges.filter (·.source == first.target)).filter (·.link != first.link)).map
      (Conclusion.ofEdges first)

/-- A round concludes what its edges join to, as far as it is new. -/
theorem Store.conclusions_eq (s : Store) (target : Option Id) :
    s.conclusions target
      = Conclusion.fresh (Std.TreeSet.ofList (s.edges.map Edge.statement))
          (Edge.joins s.edges target) := by
  rw [conclusions, Edge.joins]
  simp only [Edge.getD_bySource]

/-- What edges join to is the same under other names. -/
theorem Edge.joins_rename {edges : List Edge} {target target' : Option Id} (hf : InjOn f named)
    (hends : ∀ e ∈ edges, e.statement.Within named)
    (hlink : ∀ e ∈ edges, ∀ g ∈ edges, link e.link = link g.link ↔ e.link = g.link)
    (htoward : ∀ e ∈ edges, (e.rename link f).startsToward target' = e.startsToward target) :
    joins (edges.map (rename link f)) target' = (joins edges target).map (Conclusion.rename f) := by
  have hstart : edges.filter (startsToward target' ∘ rename link f)
      = edges.filter (startsToward target) := List.filter_congr htoward
  rw [joins, joins, List.filter_map, hstart, List.flatMap_map, List.map_flatMap]
  refine List.flatMap_congr fun first hfirst => ?_
  have hfirst := (List.mem_filter.mp hfirst).1
  have hsource : edges.filter ((fun e => e.source == (rename link f first).target) ∘ rename link f)
      = edges.filter (·.source == first.target) := by
    refine List.filter_congr fun e he => ?_
    rw [Bool.eq_iff_iff, Function.comp_apply, beq_iff_eq, beq_iff_eq]
    exact hf.eq_iff (hends e he).1 (hends first hfirst).2
  rw [List.filter_map, hsource, List.filter_map, List.map_map, List.map_map]
  -- Different links stay different, so a link is joined to no copy of itself.
  have hother : (edges.filter (·.source == first.target)).filter
        ((fun e => e.link != (rename link f first).link) ∘ rename link f)
      = (edges.filter (·.source == first.target)).filter (·.link != first.link) := by
    refine List.filter_congr fun e he => ?_
    have he := (List.mem_filter.mp he).1
    rw [Bool.eq_iff_iff, Function.comp_apply, bne_iff_ne, bne_iff_ne]
    exact (hlink e he first hfirst).not
  rw [hother]
  rfl

/-! ## Stores with the same edges -/

/-- An atom has the kind and truth of another one, and its references renamed. -/
structure Atom.Copies (f : Id → Id) (a b : Atom) : Prop where
  kind : b.kind = a.kind
  shape : b.shape = a.shape.rename f
  truth : b.truth = a.truth

namespace Store

/-- Two stores have the same edges under other names, and go on to name new links alike. -/
structure Mirrors (s s' : Store) (link f : Id → Id) (named : Set Id) (target : Option Id) : Prop where
  source : s.Open
  image : s'.Open
  edges : s'.edges = s.edges.map (Edge.rename link f)
  ends : ∀ e ∈ s.edges, e.statement.Within named
  links : ∀ e ∈ s.edges, ∀ g ∈ s.edges, link e.link = link g.link → e.link = g.link
  next : ∀ k, link (s.nextId + k) = s'.nextId + k
  /-- The target has a name, and a link is the target of one run exactly if it is that of the other. -/
  target : ∀ t, target = some t → t ∈ named ∧ t < s.nextId ∧ f t < s'.nextId ∧
    ∀ e ∈ s.edges, link e.link = f t ↔ e.link = t

variable {s s' : Store} {target : Option Id}

/-- The link of an edge has an id that has been handed out. -/
theorem Sound.link_lt (hs : s.Sound) {e : Edge} (he : e ∈ s.edges) : e.link < s.nextId := by
  obtain ⟨a, ha, hedge⟩ := mem_edges.mp he
  rw [← (Edge.ofAtom?_eq_some.mp hedge).2.2.2.1]
  exact hs.id_lt ha

/-- A chainable link of two references is one more edge. -/
theorem Sound.edges_withNext (hs : s.Sound) {t : Statement}
    (ht : t.kind = .inheritance ∨ t.kind = .implication) (truth : Truth) :
    (s.withNext t.kind (.link [t.source, t.target]) truth).edges
      = s.edges ++ [⟨s.nextId, t, truth⟩] := by
  have hedge : Edge.ofAtom? (s.nextAtom t.kind (.link [t.source, t.target]) truth)
      = some ⟨s.nextId, t, truth⟩ := Edge.ofAtom?_eq_some.mpr ⟨ht, rfl, rfl, rfl, rfl⟩
  rw [edges, hs.atoms_withNext, List.filterMap_append, List.filterMap_cons, hedge]
  rfl

/-- An edge is an inheritance or an implication. -/
theorem kind_of_mem_edges {e : Edge} (he : e ∈ s.edges) :
    e.statement.kind = .inheritance ∨ e.statement.kind = .implication := by
  obtain ⟨a, -, hedge⟩ := mem_edges.mp he
  exact (Edge.ofAtom?_eq_some.mp hedge).1

namespace Mirrors

/-- What one store concludes the other one concludes under other names. -/
theorem conclusions (h : s.Mirrors s' link f named target) (hf : InjOn f named) :
    s'.conclusions (target.map f) = (s.conclusions target).map (Conclusion.rename f) := by
  have hlink : ∀ e ∈ s.edges, ∀ g ∈ s.edges, link e.link = link g.link ↔ e.link = g.link :=
    fun e he g hg => ⟨h.links e he g hg, congrArg link⟩
  have htoward : ∀ e ∈ s.edges,
      (e.rename link f).startsToward (target.map f) = e.startsToward target := by
    intro e he
    cases htarget : target with
    | none => rfl
    | some t =>
      obtain ⟨ht, -, -, hedge⟩ := h.target t htarget
      have hsource : f e.source = f t ↔ e.source = t := hf.eq_iff (h.ends e he).1 ht
      have htarget : f e.target = f t ↔ e.target = t := hf.eq_iff (h.ends e he).2 ht
      rw [Bool.eq_iff_iff]
      simp only [Edge.startsToward, Option.map_some, Option.all_some, Edge.touches, Bool.or_eq_true,
        beq_iff_eq]
      exact or_congr (or_congr (hedge e he) hsource) htarget
  rw [conclusions_eq, conclusions_eq, h.edges, Edge.joins_rename hf h.ends hlink htoward]
  -- What is known in one store is known in the other, and all that is joined has a name.
  refine Conclusion.fresh_rename hf (fun t ht => ?_) fun c hc => ?_
  · simp only [Std.TreeSet.mem_ofList, List.contains_iff_mem, List.mem_map]
    constructor
    · rintro ⟨_, ⟨e, he, rfl⟩, heq⟩
      exact ⟨e, he, (Statement.rename_inj hf (h.ends e he) ht).mp heq⟩
    · rintro ⟨e, he, rfl⟩
      exact ⟨_, ⟨e, he, rfl⟩, rfl⟩
  · simp only [Edge.joins, List.mem_flatMap, List.mem_filter, List.mem_map] at hc
    obtain ⟨e, ⟨he, -⟩, g, ⟨⟨hg, -⟩, -⟩, rfl⟩ := hc
    exact ⟨(h.ends e he).1, (h.ends g hg).2⟩

/-- What is concluded is between ends that have names. -/
theorem of_mem_conclusions (h : s.Mirrors s' link f named target) {c : Conclusion}
    (hc : c ∈ s.conclusions target) : c.statement.Within named ∧
      (c.statement.kind = .inheritance ∨ c.statement.kind = .implication) := by
  obtain ⟨e, he, g, hg, -, rfl⟩ := exists_edges_of_mem_conclusions hc
  exact ⟨⟨(h.ends e he).1, (h.ends g hg).2⟩, kind_of_mem_edges he⟩

/-- A link for a statement in one store, and for the renamed statement in the other. -/
theorem withNext (h : s.Mirrors s' link f named target) {t : Statement} (ht : t.Within named)
    (hkind : t.kind = .inheritance ∨ t.kind = .implication) (truth : Truth) :
    (s.withNext t.kind (.link [t.source, t.target]) truth).Mirrors
      (s'.withNext t.kind (.link [f t.source, f t.target]) truth) link f named target := by
  have hedges := h.source.sound.edges_withNext hkind truth
  have hedges' := h.image.sound.edges_withNext (t := t.rename f) hkind truth
  have hnew : link s.nextId = s'.nextId := h.next 0
  -- The link of an old edge has been handed out in both stores.
  have hold : ∀ e ∈ s.edges, e.link < s.nextId ∧ link e.link < s'.nextId := by
    intro e he
    refine ⟨h.source.sound.link_lt he, h.image.sound.link_lt (e := e.rename link f) ?_⟩
    rw [h.edges]
    exact List.mem_map_of_mem he
  have hmem : ∀ e, e ∈ (s.withNext t.kind (.link [t.source, t.target]) truth).edges ↔
      e ∈ s.edges ∨ e = ⟨s.nextId, t, truth⟩ := by
    intro e
    rw [hedges, List.mem_append, List.mem_singleton]
  refine
    { source := ⟨h.source.sound.withNext, h.source.unlimited⟩
      image := ⟨h.image.sound.withNext, h.image.unlimited⟩
      edges := ?_
      ends := ?_
      links := ?_
      next := fun k => ?_
      target := ?_ }
  · rw [hedges, List.map_append, ← h.edges]
    refine hedges'.trans (congrArg _ ?_)
    rw [List.map_singleton, Edge.rename, hnew]
  · intro e he
    rcases (hmem e).mp he with he | rfl
    · exact h.ends e he
    · exact ht
  · intro e he g hg heq
    rcases (hmem e).mp he with he | rfl <;> rcases (hmem g).mp hg with hg | rfl
    · exact h.links e he g hg heq
    · exact absurd (heq.trans hnew) (hold e he).2.ne
    · exact absurd (heq.symm.trans hnew) (hold g hg).2.ne
    · rfl
  · have hk := h.next (1 + k)
    rwa [← Nat.add_assoc, ← Nat.add_assoc] at hk
  · intro x hx
    obtain ⟨hnamed, hlt, hlt', hedge⟩ := h.target x hx
    refine ⟨hnamed, Nat.lt_succ_of_lt hlt, Nat.lt_succ_of_lt hlt', fun e he => ?_⟩
    rcases (hmem e).mp he with he | rfl
    · exact hedge e he
    · show link s.nextId = f x ↔ s.nextId = x
      rw [hnew]
      exact iff_of_false hlt'.ne' hlt.ne'

/-- Links for conclusions are made alike in both stores. -/
theorem ofConclusions (h : s.Mirrors s' link f named target) {cs : List Conclusion}
    (hcs : ∀ c ∈ cs, c.statement.Within named ∧
      (c.statement.kind = .inheritance ∨ c.statement.kind = .implication)) :
    (Growth.ofConclusions s cs).failure = none ∧
      (Growth.ofConclusions s' (cs.map (Conclusion.rename f))).failure = none ∧
      List.Forall₂ (Atom.Copies f) (Growth.ofConclusions s cs).atoms
        (Growth.ofConclusions s' (cs.map (Conclusion.rename f))).atoms ∧
      (Growth.ofConclusions s cs).store.Mirrors
        (Growth.ofConclusions s' (cs.map (Conclusion.rename f))).store link f named target := by
  induction cs generalizing s s' with
  | nil => exact ⟨rfl, rfl, .nil, h⟩
  | cons c cs ih =>
    obtain ⟨hc, hkind⟩ := hcs c List.mem_cons_self
    have hderive := h.source.derive_eq c.statement.kind (.link [c.statement.source, c.statement.target])
      c.truth
    have hderive' := h.image.derive_eq (c.rename f).statement.kind
      (.link [(c.rename f).statement.source, (c.rename f).statement.target]) (c.rename f).truth
    obtain ⟨hok, hok', hatoms, hstore⟩ :=
      ih (h.withNext hc hkind c.truth) fun d hd => hcs d (List.mem_cons_of_mem c hd)
    rw [List.map_cons, Growth.ofConclusions, hderive, Growth.ofConclusions, hderive']
    exact ⟨hok, hok', .cons ⟨rfl, rfl, rfl⟩ hatoms, hstore⟩

/-- Runs of forward chaining on both stores do not fail, and make the same links under other names. -/
theorem forward {p p' : Progress} (h : p.store.Mirrors p'.store link f named target)
    (hf : InjOn f named) (hok : p.failure = none) (hok' : p'.failure = none)
    (hcreated : List.Forall₂ (Atom.Copies f) p.created p'.created) (rounds : Nat) :
    (p.forward target rounds).failure = none ∧ (p'.forward (target.map f) rounds).failure = none ∧
      List.Forall₂ (Atom.Copies f) (p.forward target rounds).created
        (p'.forward (target.map f) rounds).created := by
  induction rounds generalizing p p' with
  | zero => exact ⟨hok, hok', hcreated⟩
  | succ rounds ih =>
    have hconclusions : p'.beginForwardRound.store.conclusions (target.map f)
        = (p.beginForwardRound.store.conclusions target).map (Conclusion.rename f) := h.conclusions hf
    have hround := h.ofConclusions fun _ => h.of_mem_conclusions
    have hstart : p.beginForwardRound.store.conclusions target = p.store.conclusions target := rfl
    rw [Progress.forward, Progress.forward, hconclusions, hstart]
    generalize p.store.conclusions target = cs at hround
    cases cs with
    | nil => exact ⟨hok, hok', hcreated⟩
    | cons c cs =>
      obtain ⟨hround, hround', hatoms, hstore⟩ := hround
      have hassert : (p.beginForwardRound.assert (c :: cs)).failure = none := hround
      have hassert' :
          (p'.beginForwardRound.assert ((c :: cs).map (Conclusion.rename f))).failure = none := hround'
      simp only [List.map_cons] at hassert' ⊢
      simp only [hassert, hassert', Option.isSome_none, Bool.false_eq_true, if_false]
      exact ih hstore hassert hassert' (List.rel_append hcreated hatoms)

end Mirrors

end Store

end BeliefGraph
