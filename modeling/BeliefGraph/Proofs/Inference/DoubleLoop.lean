import Mathlib.Data.List.ProdSigma
import BeliefGraph.Proofs.Inference.Renaming

/-!
# Forward chaining as a double loop

The plain way to chain forward is a loop over all pairs of links: `Store.pairRound` lists the links of
two references that chaining walks along, goes through the pairs in order, and for each pair that meets
makes a link at once, unless a link with this kind and these references is listed or was made earlier
in the round. `Store.chainByPairs` repeats this until a round makes nothing.

Forward chaining finds the followers of a link through an index, computes all conclusions of a round
before it makes any, and keeps what is known in a set. It comes to the same (`Space.forward_eq_pairs`):
the index and the filters list the same pairs in the same order (`Store.filterMap_ofPair?`), and making
links in between changes nothing that later pairs are asked for (`Store.Round.foldlM_add`).
-/

namespace BeliefGraph

/-! ## The double loop -/

/-- What a link states: its kind and its references. -/
def Atom.triple (a : Atom) : Kind × List Id := (a.kind, a.outgoing)

/-- What a link for a statement states. -/
def Statement.triple (t : Statement) : Kind × List Id := (t.kind, [t.source, t.target])

/-- A statement is determined by its kind and its two ends. -/
theorem Statement.triple_inj {t u : Statement} : t.triple = u.triple ↔ t = u := by
  cases t
  cases u
  simp [triple]

/-- What two links make: they are not the same one, the second starts where the first one ends, and the
first is the target or references it, if there is one. -/
def Conclusion.ofPair? (target : Option Id) : Atom × Atom → Option Conclusion
  | (a, b) =>
    match a.outgoing, b.outgoing with
    | [x, y], [y', z] =>
      if a ≠ b ∧ y = y' ∧ target.all (fun t => a.id == t || a.references t) then
        some ⟨⟨a.kind, x, z⟩, a.truth.deduction b.truth⟩
      else none
    | _, _ => none

namespace Store

/-- The links of two references that chaining walks along, in order. -/
def chainLinks (s : Store) : List Atom :=
  s.query fun a => a.kind.isChainable && a.arity == 2

/-- The store in the course of a round or a run, and the links made so far. -/
structure Round where
  store : Store
  made : List Atom

/-- Makes a link and gives it its truth, unless one that states the same is listed or made. -/
def Round.add (listed : List Atom) (r : Round) (c : Conclusion) : Except StoreError Round :=
  if c.statement.triple ∈ (listed ++ r.made).map Atom.triple then .ok r
  else do
    let (a, created) ← r.store.createLink c.statement.kind [c.statement.source, c.statement.target]
    let store ← created.setTruth a.id c.truth
    return ⟨store, r.made ++ [{ a with truth := c.truth }]⟩

/-- Goes to a pair of links. -/
def Round.visit (target : Option Id) (listed : List Atom) (r : Round) (pair : Atom × Atom) :
    Except StoreError Round :=
  match Conclusion.ofPair? target pair with
  | some c => r.add listed c
  | none => .ok r

/-- All pairs of links that chaining walks along: by the first link, then by the second. -/
def pairs (s : Store) : List (Atom × Atom) := s.chainLinks ×ˢ s.chainLinks

/-- One round over all pairs. -/
def pairRound (s : Store) (target : Option Id) : Except StoreError Round :=
  s.pairs.foldlM (Round.visit target s.chainLinks) ⟨s, []⟩

/-- At most a number of rounds, until one makes nothing. -/
def chainByPairs (target : Option Id) : Nat → Store → Except StoreError Round
  | 0, s => .ok ⟨s, []⟩
  | rounds + 1, s => do
    let round ← s.pairRound target
    if round.made = [] then return round
    let rest ← chainByPairs target rounds round.store
    return ⟨rest.store, round.made ++ rest.made⟩

/-! ## The same pairs -/

variable {s : Store} {target : Option Id} {a b : Atom} {e f : Edge}

/-- The edges of a store are read off the links that chaining walks along. -/
theorem edges_eq_chainLinks (s : Store) : s.edges = s.chainLinks.filterMap Edge.ofAtom? := by
  rw [edges, chainLinks, query, List.filterMap_filter]
  refine List.filterMap_congr fun a _ => ?_
  split
  · rfl
  · next hnot =>
    cases hedge : Edge.ofAtom? a with
    | none => rfl
    | some e =>
      obtain ⟨hkind, hak, hshape, -, -⟩ := Edge.ofAtom?_eq_some.mp hedge
      refine absurd ?_ hnot
      rw [Atom.arity, Atom.outgoing, hshape, hak]
      rcases hkind with hkind | hkind <;> rw [hkind] <;> rfl

/-- A listed link is an edge. -/
theorem exists_edge_of_mem_chainLinks (ha : a ∈ s.chainLinks) : ∃ e, Edge.ofAtom? a = some e := by
  obtain ⟨-, hchain⟩ := List.mem_filter.mp ha
  obtain ⟨hkind, harity⟩ := Bool.and_eq_true_iff.mp hchain
  obtain ⟨x, y, houtgoing⟩ := List.length_eq_two.mp (beq_iff_eq.mp harity)
  exact ⟨_, by rw [Edge.ofAtom?, hkind, houtgoing]⟩

/-- The atom of an edge has the kind and the ends that the edge states. -/
theorem triple_of_edge (he : Edge.ofAtom? a = some e) : a.triple = e.statement.triple := by
  obtain ⟨-, hkind, hshape, -, -⟩ := Edge.ofAtom?_eq_some.mp he
  rw [Atom.triple, Statement.triple, hkind, Atom.outgoing, hshape]
  rfl

/-- The edges state what the listed links state. -/
theorem mem_map_statement_edges {t : Statement} :
    t ∈ s.edges.map Edge.statement ↔ t.triple ∈ s.chainLinks.map Atom.triple := by
  rw [edges_eq_chainLinks]
  simp only [List.mem_map, List.mem_filterMap]
  constructor
  · rintro ⟨e, ⟨a, ha, he⟩, rfl⟩
    exact ⟨a, ha, triple_of_edge he⟩
  · rintro ⟨a, ha, htriple⟩
    obtain ⟨e, he⟩ := exists_edge_of_mem_chainLinks ha
    exact ⟨e, ⟨a, ha, he⟩, Statement.triple_inj.mp ((triple_of_edge he).symm.trans htriple)⟩

/-- What two links make that are edges. -/
theorem Sound.ofPair?_eq (hs : s.Sound) (ha : a ∈ s.chainLinks) (hb : b ∈ s.chainLinks)
    (he : Edge.ofAtom? a = some e) (hf : Edge.ofAtom? b = some f) :
    Conclusion.ofPair? target (a, b)
      = if e.startsToward target ∧ f.source = e.target ∧ f.link ≠ e.link then
          some (Conclusion.ofEdges e f)
        else none := by
  obtain ⟨-, hak, hashape, haid, hatruth⟩ := Edge.ofAtom?_eq_some.mp he
  obtain ⟨-, -, hbshape, hbid, hbtruth⟩ := Edge.ofAtom?_eq_some.mp hf
  have haout : a.outgoing = [e.source, e.target] := by rw [Atom.outgoing, hashape]; rfl
  have hbout : b.outgoing = [f.source, f.target] := by rw [Atom.outgoing, hbshape]; rfl
  -- The loop compares the links, chaining their ids.
  have hne : a ≠ b ↔ f.link ≠ e.link := by
    rw [← haid, ← hbid, ne_eq, ne_eq, not_iff_not]
    refine ⟨fun h => by rw [h], fun hid => ?_⟩
    have ha := hs.mem_atoms.mp (List.mem_filter.mp ha).1
    have hb := hs.mem_atoms.mp (List.mem_filter.mp hb).1
    rw [← hid, hb] at ha
    exact (Option.some.inj ha).symm
  have htoward : target.all (fun t => a.id == t || a.references t) = e.startsToward target := by
    cases target with
    | none => rfl
    | some t =>
      rw [Option.all_some, Edge.startsToward, Option.all_some, Edge.touches, Atom.references, haout,
        haid, Bool.eq_iff_iff]
      simp only [Bool.or_eq_true, beq_iff_eq, List.contains_iff_mem, List.mem_cons, List.not_mem_nil,
        or_false, or_assoc, eq_comm (a := t)]
  simp only [Conclusion.ofPair?, haout, hbout, hne, htoward, hak, hatruth, hbtruth,
    eq_comm (a := e.target)]
  refine if_congr ?_ rfl rfl
  tauto

/-- The pairs with one first link make what its edge concludes with the edges that follow it. -/
theorem Sound.filterMap_ofPair?_left (hs : s.Sound) (target : Option Id) (ha : a ∈ s.chainLinks)
    (he : Edge.ofAtom? a = some e) {bs : List Atom} (hbs : ∀ b ∈ bs, b ∈ s.chainLinks) :
    bs.filterMap (fun b => Conclusion.ofPair? target (a, b))
      = if e.startsToward target then
          (((bs.filterMap Edge.ofAtom?).filter (·.source == e.target)).filter
            (·.link != e.link)).map (Conclusion.ofEdges e)
        else [] := by
  induction bs with
  | nil => simp
  | cons b bs ih =>
    obtain ⟨hb, hbs⟩ := List.forall_mem_cons.mp hbs
    obtain ⟨f, hf⟩ := exists_edge_of_mem_chainLinks hb
    rw [List.filterMap_cons, hs.ofPair?_eq ha hb he hf, ih hbs, List.filterMap_cons, hf]
    by_cases hstarts : e.startsToward target
    · by_cases hmeets : f.source = e.target
      · by_cases hlink : f.link = e.link
        · simp [hstarts, hmeets, hlink]
        · simp [hstarts, hmeets, hlink]
      · simp [hstarts, hmeets]
    · simp [hstarts]

/-- The pairs make what the edges conclude, in the same order. -/
theorem Sound.filterMap_ofPair? (hs : s.Sound) (target : Option Id) :
    s.pairs.filterMap (Conclusion.ofPair? target) = Edge.joins s.edges target := by
  -- The first links are taken one by one; the second ones are all of them each time.
  have houter : ∀ as : List Atom, (∀ a ∈ as, a ∈ s.chainLinks) →
      (as ×ˢ s.chainLinks).filterMap (Conclusion.ofPair? target)
        = ((as.filterMap Edge.ofAtom?).filter (Edge.startsToward target)).flatMap fun first =>
            ((s.edges.filter (·.source == first.target)).filter (·.link != first.link)).map
              (Conclusion.ofEdges first) := by
    intro as
    induction as with
    | nil => intro _; rfl
    | cons a as ih =>
      intro has
      obtain ⟨ha, has⟩ := List.forall_mem_cons.mp has
      obtain ⟨e, he⟩ := exists_edge_of_mem_chainLinks ha
      rw [List.product_cons, List.filterMap_append, ih has, List.filterMap_map, List.filterMap_cons, he]
      have hall : ∀ b ∈ s.chainLinks, b ∈ s.chainLinks := fun _ hb => hb
      have hleft := hs.filterMap_ofPair?_left target ha he hall
      rw [← edges_eq_chainLinks] at hleft
      rw [Function.comp_def, hleft]
      by_cases hstarts : e.startsToward target
      · simp [hstarts]
      · simp [hstarts]
  rw [pairs, houter _ fun a ha => ha, ← edges_eq_chainLinks, Edge.joins]

end Store

/-! ## The same links -/

namespace Conclusion

/-- A conclusion is the one that a link was made for. -/
structure Describes (c : Conclusion) (a : Atom) : Prop where
  kind : a.kind = c.statement.kind
  shape : a.shape = .link [c.statement.source, c.statement.target]
  truth : a.truth = c.truth

/-- The link for a conclusion has the kind and the ends that the conclusion states. -/
theorem Describes.triple {c : Conclusion} {a : Atom} (h : c.Describes a) :
    a.triple = c.statement.triple := by
  rw [Atom.triple, Statement.triple, h.kind, Atom.outgoing, h.shape]
  rfl

/-- Of the conclusions with one statement the first is kept. -/
theorem find?_of_mem_fresh {known : Std.TreeSet Statement} {cs : List Conclusion} {c : Conclusion}
    (hc : c ∈ fresh known cs) : cs.find? (·.statement == c.statement) = some c := by
  induction cs generalizing known with
  | nil => exact absurd hc List.not_mem_nil
  | cons d ds ih =>
    rw [fresh] at hc
    by_cases hd : d.statement ∈ known
    · rw [if_pos hd] at hc
      have hnew := (mem_fresh.mp (List.mem_map_of_mem hc)).1
      have hne : d.statement ≠ c.statement := fun h => hnew (h ▸ hd)
      rw [List.find?_cons_of_neg (by simpa using hne)]
      exact ih hc
    · rw [if_neg hd] at hc
      rcases List.mem_cons.mp hc with rfl | hc
      · exact List.find?_cons_of_pos (by simp)
      · have hnew := (mem_fresh.mp (List.mem_map_of_mem hc)).1
        have hne : d.statement ≠ c.statement := fun h => hnew (by simp [h])
        rw [List.find?_cons_of_neg (by simpa using hne)]
        exact ih hc

/-- What is kept states different things. -/
theorem nodup_fresh (known : Std.TreeSet Statement) (cs : List Conclusion) :
    ((fresh known cs).map statement).Nodup := by
  induction cs generalizing known with
  | nil => exact List.nodup_nil
  | cons c cs ih =>
    rw [fresh]
    split
    · exact ih known
    · rw [List.map_cons, List.nodup_cons]
      refine ⟨fun hmem => ?_, ih _⟩
      exact (mem_fresh.mp hmem).1 (by simp)

end Conclusion

/-- A link is made for a conclusion, also if the store refuses the rest. -/
theorem Growth.exists_describes {s : Store} {cs : List Conclusion} {a : Atom}
    (ha : a ∈ (ofConclusions s cs).atoms) : ∃ c ∈ cs, c.Describes a := by
  induction cs generalizing s with
  | nil => exact absurd ha List.not_mem_nil
  | cons c cs ih =>
    rw [ofConclusions] at ha
    rcases s.derive_cases c.statement.kind (.link [c.statement.source, c.statement.target]) c.truth
      with ⟨limit, -, hderive⟩ | ⟨-, hderive⟩
    · rw [hderive] at ha
      exact absurd ha List.not_mem_nil
    · rw [hderive] at ha
      rcases List.mem_cons.mp ha with rfl | ha
      · exact ⟨c, List.mem_cons_self, rfl, rfl, rfl⟩
      · obtain ⟨d, hd, hdescribes⟩ := ih ha
        exact ⟨d, List.mem_cons_of_mem c hd, hdescribes⟩

namespace Store

variable {s : Store} {target : Option Id} {r : Round} {listed : List Atom}

/-- A store without a limit has none after an atom was derived. -/
theorem Open.withNext (hs : s.Open) (kind : Kind) (shape : Shape) (truth : Truth) :
    (s.withNext kind shape truth).Open :=
  ⟨hs.sound.withNext, hs.unlimited⟩

/-- In a store without a limit a link is made for each conclusion. -/
theorem Open.describes_ofConclusions (hs : s.Open) (cs : List Conclusion) :
    (Growth.ofConclusions s cs).failure = none ∧
      List.Forall₂ Conclusion.Describes cs (Growth.ofConclusions s cs).atoms := by
  induction cs generalizing s with
  | nil => exact ⟨rfl, .nil⟩
  | cons c cs ih =>
    rw [Growth.ofConclusions, hs.derive_eq]
    obtain ⟨hok, hatoms⟩ := ih (hs.withNext c.statement.kind
      (.link [c.statement.source, c.statement.target]) c.truth)
    exact ⟨hok, .cons ⟨rfl, rfl, rfl⟩ hatoms⟩

/-- A link is made and given its truth in two steps, which come to one. -/
theorem Round.add_eq (hs : r.store.Open) (c : Conclusion) :
    r.add listed c
      = if c.statement.triple ∈ (listed ++ r.made).map Atom.triple then .ok r
        else .ok ⟨r.store.withNext c.statement.kind
            (.link [c.statement.source, c.statement.target]) c.truth,
          r.made ++ [r.store.nextAtom c.statement.kind
            (.link [c.statement.source, c.statement.target]) c.truth]⟩ := by
  let shape : Shape := .link [c.statement.source, c.statement.target]
  have hcreate : r.store.createLink c.statement.kind [c.statement.source, c.statement.target]
      = .ok (Atom.new r.store.nextId c.statement.kind shape, r.store.place c.statement.kind shape) :=
    create_of_unlimited hs.unlimited _ _
  have hset : (r.store.place c.statement.kind shape).setTruth r.store.nextId c.truth
      = .ok (r.store.withNext c.statement.kind shape c.truth) := by
    rw [setTruth, updateTruth, get?_place, if_pos rfl]
    rfl
  rw [add, hcreate]
  simp only [bind, Except.bind]
  rw [show (Atom.new r.store.nextId c.statement.kind shape).id = r.store.nextId from rfl, hset]
  rfl

/-- Making links in between comes to the same as making them at the end of the round: what is listed
and made is what is known. -/
theorem Round.foldlM_add (hs : r.store.Open) {known : Std.TreeSet Statement}
    (hknown : ∀ t, t ∈ known ↔ t.triple ∈ (listed ++ r.made).map Atom.triple)
    (cs : List Conclusion) :
    cs.foldlM (Round.add listed) r
      = .ok ⟨(Growth.ofConclusions r.store (Conclusion.fresh known cs)).store,
          r.made ++ (Growth.ofConclusions r.store (Conclusion.fresh known cs)).atoms⟩ := by
  induction cs generalizing r known with
  | nil =>
    rw [Conclusion.fresh, Growth.ofConclusions, List.append_nil]
    rfl
  | cons c cs ih =>
    rw [List.foldlM_cons, Round.add_eq hs, Conclusion.fresh]
    by_cases hc : c.statement ∈ known
    · rw [if_pos ((hknown _).mp hc), if_pos hc]
      exact ih hs hknown
    · rw [if_neg (mt (hknown _).mpr hc), if_neg hc, Growth.ofConclusions, hs.derive_eq]
      let shape : Shape := .link [c.statement.source, c.statement.target]
      let a := r.store.nextAtom c.statement.kind shape c.truth
      have ha : a.triple = c.statement.triple := rfl
      -- What is known stays what is listed and made.
      have hinsert : ∀ t, t ∈ known.insert c.statement ↔
          t.triple ∈ (listed ++ (r.made ++ [a])).map Atom.triple := by
        intro t
        simp only [Std.TreeSet.mem_insert, Std.LawfulEqCmp.compare_eq_iff_eq, hknown, List.map_append,
          List.mem_append, List.map_cons, List.map_nil, List.mem_singleton, ha, Statement.triple_inj,
          eq_comm (a := t)]
        tauto
      have hrest := ih (r := ⟨r.store.withNext c.statement.kind shape c.truth, r.made ++ [a]⟩)
        (hs.withNext c.statement.kind shape c.truth) hinsert
      rw [List.append_assoc] at hrest
      exact hrest

/-- A round of the double loop makes the links of a round of forward chaining. -/
theorem Open.pairRound_eq (hs : s.Open) (target : Option Id) :
    s.pairRound target
      = .ok ⟨(Growth.ofConclusions s (s.conclusions target)).store,
          (Growth.ofConclusions s (s.conclusions target)).atoms⟩ := by
  have hknown : ∀ t, t ∈ Std.TreeSet.ofList (s.edges.map Edge.statement) ↔
      t.triple ∈ (s.chainLinks ++ []).map Atom.triple := by
    intro t
    rw [List.append_nil, Std.TreeSet.mem_ofList, List.contains_iff_mem, mem_map_statement_edges]
  have hfold : s.pairRound target
      = (s.pairs.filterMap (Conclusion.ofPair? target)).foldlM (Round.add s.chainLinks) ⟨s, []⟩ := by
    rw [pairRound, List.foldlM_filterMap]
    congr 1
    funext r pair
    rw [Round.visit]
    cases Conclusion.ofPair? target pair <;> rfl
  rw [hfold, hs.sound.filterMap_ofPair?, Round.foldlM_add hs hknown, ← conclusions_eq]
  rfl

/-! ## One round -/

/-- The earliest pair that states what a link states gave it its truth. -/
def FirstPair (s : Store) (target : Option Id) (a : Atom) : Prop :=
  ∃ before pair after c, s.pairs = before ++ pair :: after ∧
    Conclusion.ofPair? target pair = some c ∧ c.Describes a ∧
    ∀ p ∈ before, ∀ d, Conclusion.ofPair? target p = some d → d.statement ≠ c.statement

/-- What a round makes. -/
structure PairRound (s : Store) (target : Option Id) (round : Round) : Prop where
  isOpen : round.store.Open
  atoms : round.store.atoms = s.atoms ++ round.made
  /-- Nothing is made that some atom states already, and nothing is made twice. -/
  new : ∀ a ∈ round.made, a.triple ∉ s.atoms.map Atom.triple
  nodup : (round.made.map Atom.triple).Nodup
  first : ∀ a ∈ round.made, s.FirstPair target a

/-- The links of some conclusions state what these conclude, in the same order. -/
theorem map_triple_of_describes {cs : List Conclusion} {made : List Atom}
    (h : List.Forall₂ Conclusion.Describes cs made) :
    made.map Atom.triple = (cs.map Conclusion.statement).map Statement.triple := by
  induction h with
  | nil => rfl
  | cons hc _ ih => rw [List.map_cons, List.map_cons, List.map_cons, ih, hc.triple]

/-- A conclusion has been drawn from the first pair that makes its statement. -/
theorem Open.firstPair (hs : s.Open) {c : Conclusion} {a : Atom} (hc : c ∈ s.conclusions target)
    (ha : c.Describes a) : s.FirstPair target a := by
  rw [conclusions_eq, ← hs.sound.filterMap_ofPair?] at hc
  have hfind := Conclusion.find?_of_mem_fresh hc
  rw [List.find?_filterMap] at hfind
  obtain ⟨pair, hpair, hmakes⟩ := Option.bind_eq_some_iff.mp hfind
  obtain ⟨-, before, after, hsplit, hbefore⟩ := List.find?_eq_some_iff_append.mp hpair
  refine ⟨before, pair, after, c, hsplit, hmakes, ha, fun p hp d hd => ?_⟩
  have hnot := hbefore p hp
  rw [hd, Option.any_some] at hnot
  simpa using hnot

/-- What is concluded no atom states. -/
theorem triple_not_mem_of_mem_conclusions {c : Conclusion} (hc : c ∈ s.conclusions target) :
    c.statement.triple ∉ s.atoms.map Atom.triple := by
  obtain ⟨e, he, f, -, -, hjoin⟩ := exists_edges_of_mem_conclusions hc
  have hkind : c.statement.kind.isChainable = true := by
    have hkind := kind_of_mem_edges he
    rw [hjoin, Conclusion.ofEdges]
    rcases hkind with hkind | hkind <;> rw [hkind] <;> rfl
  rw [conclusions_eq] at hc
  have hnew := (Conclusion.mem_fresh.mp (List.mem_map_of_mem hc)).1
  rw [Std.TreeSet.mem_ofList, List.contains_iff_mem, mem_map_statement_edges] at hnew
  refine fun hmem => hnew ?_
  obtain ⟨b, hb, htriple⟩ := List.mem_map.mp hmem
  have hbkind : b.kind = c.statement.kind := congrArg Prod.fst htriple
  have hbout : b.outgoing = [c.statement.source, c.statement.target] := congrArg Prod.snd htriple
  refine List.mem_map.mpr ⟨b, List.mem_filter.mpr ⟨hb, ?_⟩, htriple⟩
  rw [hbkind, hkind, Atom.arity, hbout]
  rfl

/-- A round of chaining from a store without a limit is the round that looks at all pairs of edges. -/
theorem Open.pairRound (hs : s.Open) (target : Option Id) :
    s.PairRound target ⟨(Growth.ofConclusions s (s.conclusions target)).store,
      (Growth.ofConclusions s (s.conclusions target)).atoms⟩ := by
  have hgrown := Growth.grown_ofConclusions hs.sound
    fun c (hc : c ∈ s.conclusions target) => knows_of_mem_conclusions hc
  obtain ⟨-, hdescribes⟩ := hs.describes_ofConclusions (s.conclusions target)
  refine ⟨⟨hgrown.sound, hgrown.limit.trans hs.unlimited⟩, hgrown.atoms, fun a ha => ?_, ?_,
    fun a ha => ?_⟩
  · obtain ⟨c, hc, hdescribes⟩ := Growth.exists_describes ha
    rw [hdescribes.triple]
    exact triple_not_mem_of_mem_conclusions hc
  · rw [map_triple_of_describes hdescribes, conclusions_eq]
    refine (Conclusion.nodup_fresh _ _).map fun t u h => Statement.triple_inj.mp h
  · obtain ⟨c, hc, hdescribes⟩ := Growth.exists_describes ha
    exact hs.firstPair hc hdescribes

/-! ## Runs -/

/-- What a run makes: nothing twice and nothing that was stated before it, and each link in one of the
rounds, where the earliest pair determined its truth. -/
structure PairRun (s : Store) (target : Option Id) (rounds : Nat) (last : Round) : Prop where
  run : chainByPairs target rounds s = .ok last
  new : ∀ a ∈ last.made, a.triple ∉ s.atoms.map Atom.triple
  nodup : (last.made.map Atom.triple).Nodup
  first : ∀ a ∈ last.made, ∃ k mid, k < rounds ∧ chainByPairs target k s = .ok mid ∧
    mid.store.FirstPair target a

/-- A run over pairs of edges is its first round and the run from the store that it leaves. -/
theorem chainByPairs_succ {round : Round} (hround : s.pairRound target = .ok round) (rounds : Nat) :
    chainByPairs target (rounds + 1) s
      = if round.made = [] then .ok round
        else (chainByPairs target rounds round.store).map fun rest =>
          ⟨rest.store, round.made ++ rest.made⟩ := by
  rw [chainByPairs, hround]
  simp only [bind, Except.bind, pure, Except.pure]
  split
  · rfl
  · cases chainByPairs target rounds round.store <;> rfl

/-- A round that makes nothing ends a run. -/
theorem PairRun.stop {round : Round} (hround : s.pairRound target = .ok round)
    (hnone : round.made = []) (rounds : Nat) : s.PairRun target (rounds + 1) round where
  run := by rw [chainByPairs_succ hround, if_pos hnone]
  new := by simp [hnone]
  nodup := by simp [hnone]
  first := by simp [hnone]

/-- A round that makes something comes before a run from where it ends. -/
theorem PairRun.cons {round rest : Round} {rounds : Nat} (hround : s.pairRound target = .ok round)
    (h : s.PairRound target round) (hsome : round.made ≠ [])
    (h' : round.store.PairRun target rounds rest) :
    s.PairRun target (rounds + 1) ⟨rest.store, round.made ++ rest.made⟩ := by
  have hsucc : ∀ {k mid}, chainByPairs target k round.store = .ok mid →
      chainByPairs target (k + 1) s = .ok ⟨mid.store, round.made ++ mid.made⟩ := by
    intro k mid hmid
    rw [chainByPairs_succ hround, if_neg hsome, hmid]
    rfl
  -- The rest starts from what was there and what the round has made, and states neither again.
  have hrest : ∀ a ∈ rest.made,
      a.triple ∉ s.atoms.map Atom.triple ∧ a.triple ∉ round.made.map Atom.triple := by
    intro a ha
    have hnew := h'.new a ha
    rw [h.atoms, List.map_append, List.mem_append, not_or] at hnew
    exact hnew
  refine ⟨hsucc h'.run, fun a ha => ?_, ?_, fun a ha => ?_⟩
  · rcases List.mem_append.mp ha with ha | ha
    · exact h.new a ha
    · exact (hrest a ha).1
  · rw [List.map_append]
    refine h.nodup.append h'.nodup fun t ht ht' => ?_
    obtain ⟨a, ha, rfl⟩ := List.mem_map.mp ht'
    exact (hrest a ha).2 ht
  · rcases List.mem_append.mp ha with ha | ha
    · exact ⟨0, ⟨s, []⟩, Nat.succ_pos rounds, rfl, h.first a ha⟩
    · obtain ⟨k, mid, hk, hmid, hfirst⟩ := h'.first a ha
      exact ⟨k + 1, _, Nat.succ_lt_succ hk, hsucc hmid, hfirst⟩

/-- The double loop and forward chaining go on alike. -/
theorem exists_pairRun {p : Progress} (hs : p.store.Open) (hok : p.failure = none)
    (target : Option Id) (rounds : Nat) :
    ∃ last, p.store.PairRun target rounds last ∧
      (p.forward target rounds).store = last.store ∧
      (p.forward target rounds).created = p.created ++ last.made ∧
      (p.forward target rounds).failure = none := by
  induction rounds generalizing p with
  | zero =>
    refine ⟨⟨p.store, []⟩, ⟨rfl, ?_, List.nodup_nil, ?_⟩, rfl, (List.append_nil _).symm, hok⟩
    · simp
    · simp
  | succ rounds ih =>
    have hround := hs.pairRound_eq target
    have hmakes := hs.pairRound target
    obtain ⟨hunfailed, hdescribes⟩ := hs.describes_ofConclusions (p.store.conclusions target)
    have hconclusions : p.beginForwardRound.store.conclusions target = p.store.conclusions target := rfl
    rw [Progress.forward, hconclusions]
    generalize p.store.conclusions target = cs at hround hmakes hunfailed hdescribes
    cases cs with
    | nil => exact ⟨_, .stop hround rfl rounds, rfl, (List.append_nil _).symm, hok⟩
    | cons c cs =>
      have hsome : (Growth.ofConclusions p.store (c :: cs)).atoms ≠ [] := by
        intro hnone
        rw [hnone] at hdescribes
        cases hdescribes
      have hunfailed : (p.beginForwardRound.assert (c :: cs)).failure = none := hunfailed
      obtain ⟨rest, hrun, hstore, hcreated, hok'⟩ :=
        ih (p := p.beginForwardRound.assert (c :: cs)) hmakes.isOpen hunfailed
      simp only [hunfailed, Option.isSome_none, Bool.false_eq_true, if_false]
      refine ⟨_, .cons hround hmakes hsome hrun, hstore, ?_, hok'⟩
      rw [hcreated, ← List.append_assoc]
      rfl

end Store

namespace Space

/-- In a store without a limit forward chaining makes what the double loop over pairs of links makes:
the same links in the same order, with the same ids and truths, and the same store. Nothing that is made
is stated by an atom that was there or is made twice, and each link has the truth that the earliest of
the pairs gives it that make it in its round. -/
theorem forward_eq_pairs (space : Space) (target : Option Id) (rounds : Nat)
    (hs : space.store.Sound) (hlimit : space.store.limit = none) :
    ∃ last, Store.chainByPairs target rounds space.store = .ok last ∧
      (space.forward target rounds).1 = .ok last.made ∧
      (space.forward target rounds).2.store = last.store ∧
      (∀ a ∈ last.made, a.triple ∉ space.store.atoms.map Atom.triple) ∧
      (last.made.map Atom.triple).Nodup ∧
      ∀ a ∈ last.made, ∃ k mid, k < rounds ∧ Store.chainByPairs target k space.store = .ok mid ∧
        mid.store.FirstPair target a := by
  obtain ⟨last, hrun, hstore, hcreated, hok⟩ :=
    Store.exists_pairRun (p := space.startRun) ⟨hs, hlimit⟩ rfl target rounds
  refine ⟨last, hrun.run, ?_, hstore, hrun.new, hrun.nodup, hrun.first⟩
  rw [forward, finishRun, Progress.result, hok, hcreated]
  rfl

/-- The only pair of the two links makes the link that joins them. -/
theorem forward_eq_pairs_twoLinks :
    twoLinks.store.Sound ∧ twoLinks.store.limit = none ∧ ∃ last,
      Store.chainByPairs none 1 twoLinks.store = .ok last ∧
        (twoLinks.forward none 1).1 = .ok last.made ∧
        last.made.map Atom.triple = [(.inheritance, [7, 9])] := by
  have hs : twoLinks.store.Sound := Store.Reachable.sound ⟨none, _, rfl⟩
  obtain ⟨last, hrun, hresult, -⟩ := forward_eq_pairs twoLinks none 1 hs rfl
  have hforward : (twoLinks.forward none 1).1 = .ok
    [⟨3, .inheritance, .link [7, 9], Truth.unknown.deduction Truth.unknown, Attention.none⟩] := rfl
  have hmade := Except.ok.inj (hforward.symm.trans hresult)
  exact ⟨hs, rfl, last, hrun, hresult, by rw [← hmade]; rfl⟩

end Space

end BeliefGraph
