import Mathlib.Logic.Relation
import BeliefGraph.Proofs.Pattern.Assignment
import BeliefGraph.Proofs.Store.Revaluation

/-!
# What keeps a match

A pattern asks only for atoms that are there. The store enters an assignment only through which atoms are
live (`Store.Assigns.of_live`), so atoms that are made leave every match as it was, and a match goes with a
deleted atom exactly if the atom has a position in it. Values are not asked for at all, and a pattern that
asks for less (`Pattern.Weakens`) loses nothing.
-/

namespace BeliefGraph

/-! ## Weaker patterns -/

namespace Pattern

/-- A pattern that asks for less than another one in a single place, at any depth. -/
inductive Weakens : Pattern → Pattern → Prop
  | dropKind (p : Pattern) : Weakens p { p with kind := none }
  | dropLabel (p : Pattern) : Weakens p { p with label := none }
  | wildcard (p : Pattern) {q : Pattern} (h : q.wildcard = true) : Weakens p q
  | child {c d : Pattern} (h : Weakens c d) (kind : Option Kind) (label : Option String)
      (front behind : List Pattern) (wildcard : Bool) :
      Weakens ⟨kind, label, front ++ c :: behind, wildcard⟩ ⟨kind, label, front ++ d :: behind, wildcard⟩

variable {resolve : Id → Option Atom} {p q : Pattern} {a : Atom}

/-- What one pattern accepts another one does, if it asks for no more of the atom itself and its children
accept what those of the first one accept. -/
theorem accepts_of_suits (hwild : p.wildcard = true → q.wildcard = true)
    (hsuits : ∀ a, p.Suits a → q.Suits a)
    (hchildren : ∀ (i : ℕ) (d : Pattern), q.children[i]? = some d → ∃ c, p.children[i]? = some c ∧
      ∀ {a}, c.accepts resolve a = true → d.accepts resolve a = true)
    (ha : p.accepts resolve a = true) : q.accepts resolve a = true := by
  cases hq : q.wildcard with
  | true => exact accepts_of_wildcard hq a
  | false =>
    have hp : p.wildcard = false := by
      rw [Bool.eq_false_iff]
      exact fun hp => Bool.false_ne_true (hq.symm.trans (hwild hp))
    obtain ⟨hsuit, hbelow⟩ := (accepts_iff hp).mp ha
    refine (accepts_iff hq).mpr ⟨hsuits a hsuit, fun i d hd => ?_⟩
    obtain ⟨c, hc, haccepts⟩ := hchildren i d hd
    obtain ⟨id, b, hid, hresolve, hb⟩ := hbelow i c hc
    exact ⟨id, b, hid, hresolve, haccepts hb⟩

/-- Where one child is exchanged for another one, each place has the child that it had, or these two. -/
theorem exists_of_getElem?_exchange {c d e : Pattern} {front behind : List Pattern} {i : ℕ}
    (h : (front ++ d :: behind)[i]? = some e) :
    ∃ b, (front ++ c :: behind)[i]? = some b ∧ (b = e ∨ b = c ∧ e = d) := by
  rcases Nat.lt_or_ge i front.length with hi | hi
  · rw [List.getElem?_append_left hi] at h
    exact ⟨e, by rw [List.getElem?_append_left hi, h], .inl rfl⟩
  · rw [List.getElem?_append_right hi] at h ⊢
    cases hj : i - front.length with
    | zero =>
      rw [hj] at h
      exact ⟨c, rfl, .inr ⟨rfl, (Option.some.inj h).symm⟩⟩
    | succ j =>
      rw [hj] at h
      exact ⟨e, h, .inl rfl⟩

/-- What a pattern accepts is accepted by one that asks for less in a single place. -/
theorem Weakens.accepts (h : p.Weakens q) :
    ∀ {a : Atom}, p.accepts resolve a = true → q.accepts resolve a = true := by
  induction h with
  | dropKind p =>
    exact accepts_of_suits id (fun a ha => ⟨(fun _ h => nomatch h), ha.label, ha.arity⟩)
      fun i c hc => ⟨c, hc, id⟩
  | dropLabel p =>
    exact accepts_of_suits id (fun a ha => ⟨ha.kind, (fun _ h => nomatch h), ha.arity⟩)
      fun i c hc => ⟨c, hc, id⟩
  | wildcard p h => exact fun _ => accepts_of_wildcard h _
  | child h kind label front behind wildcard ih =>
    refine accepts_of_suits id (fun a ha => ⟨ha.kind, ha.label, ?_⟩) fun i e he => ?_
    · rw [ha.arity]
      simp only [List.length_append, List.length_cons]
    · obtain ⟨b, hb, hcases⟩ := exists_of_getElem?_exchange he
      refine ⟨b, hb, ?_⟩
      rcases hcases with rfl | ⟨rfl, rfl⟩
      · exact id
      · exact ih

/-- What a pattern accepts is accepted by one that asks for less in any number of places. -/
theorem accepts_of_weakens (h : Relation.ReflTransGen Weakens p q) (ha : p.accepts resolve a = true) :
    q.accepts resolve a = true := by
  induction h with
  | refl => exact ha
  | tail _ h ih => exact h.accepts ih

/-! ## Other values -/

theorem Suits.congr {b : Atom} (h : p.Suits a) (hkind : b.kind = a.kind) (hshape : b.shape = a.shape) :
    p.Suits b where
  kind k hk := hkind.trans (h.kind k hk)
  label l hl := hshape.trans (h.label l hl)
  arity := by
    rw [Atom.outgoing, hshape]
    exact h.arity

/-- Neither truth nor attention is asked for, of the atom or of what it references. -/
theorem accepts_map {f : Atom → Atom} (hf : Atom.KeepsStructure f) : ∀ (p : Pattern) {a : Atom},
    p.accepts (fun id => (resolve id).map f) (f a) = p.accepts resolve a := by
  -- The pattern is a tree, so the induction is on it, and not along references, which may come around.
  refine Pattern.induction fun p ih a => ?_
  cases hp : p.wildcard with
  | true => rw [accepts_of_wildcard hp, accepts_of_wildcard hp]
  | false =>
    have hsuits : p.Suits (f a) ↔ p.Suits a :=
      ⟨fun h => h.congr (hf.kind a).symm (hf.shape a).symm, fun h => h.congr (hf.kind a) (hf.shape a)⟩
    rw [Bool.eq_iff_iff, accepts_iff hp, accepts_iff hp, hsuits, hf.outgoing]
    refine and_congr_right fun _ => forall_congr' fun i => forall_congr' fun c => ?_
    refine imp_congr_right fun hc => ?_
    have hchild : ∀ b, c.accepts (fun id => (resolve id).map f) (f b) = c.accepts resolve b :=
      fun b => ih c (List.mem_of_getElem? hc)
    simp only [Option.map_eq_some_iff]
    constructor
    · rintro ⟨id, _, hid, ⟨b, hb, rfl⟩, haccepts⟩
      exact ⟨id, b, hid, hb, (hchild b).symm.trans haccepts⟩
    · rintro ⟨id, b, hid, hb, haccepts⟩
      exact ⟨id, f b, hid, ⟨b, hb, rfl⟩, (hchild b).trans haccepts⟩

end Pattern

namespace Store

variable {s t : Store} {p q : Pattern} {x a : Atom} {σ : List ℕ → Option Atom} {f : Atom → Atom}

/-! ## Other atoms -/

/-- An assignment is one in every store that has its atoms. -/
theorem Assigns.of_live (h : s.Assigns p x σ) (hlive : ∀ path a, σ path = some a → a ∈ t.atoms) :
    t.Assigns p x σ :=
  { h with live := hlive }

/-- More atoms keep the matches, in their order. -/
theorem Sound.matching_sublist (hs : s.Sound) (ht : t.Sound) (h : s.atoms ⊆ t.atoms) :
    (s.matching p).Sublist (t.matching p) := by
  have hsort : (s.matching p).Pairwise ById := hs.pairwise_atoms.filter _
  have hsubset : s.matching p ⊆ t.matching p := fun x hx => by
    obtain ⟨σ, hσ⟩ := hs.mem_matching_iff.mp hx
    exact ht.mem_matching_iff.mpr ⟨σ, hσ.of_live fun path a ha => h (hσ.live path a ha)⟩
  -- Both lists of matches are in the order of ids, so one is part of the other in this order.
  exact List.sublist_of_subperm_of_pairwise
    (List.subperm_of_subset hsort.nodup hsubset) hsort (ht.pairwise_atoms.filter _)

/-- The atoms of one store are those of another one and at most one more, which has a certain id. -/
structure AtMostOneMore (s : Store) (id : Id) (t : Store) : Prop where
  subset : s.atoms ⊆ t.atoms
  of_ne : ∀ a ∈ t.atoms, a.id ≠ id → a ∈ s.atoms

theorem AtMostOneMore.refl (s : Store) (id : Id) : s.AtMostOneMore id s :=
  ⟨List.Subset.refl _, fun _ ha _ => ha⟩

/-- A match that is only in the larger store has the additional atom at a position. -/
theorem AtMostOneMore.exists_position {id : Id} (h : s.AtMostOneMore id t) (hs : s.Sound)
    (ht : t.Sound) (hx : x ∈ t.matching p) (hnot : x ∉ s.matching p) :
    ∃ σ path a, t.Assigns p x σ ∧ σ path = some a ∧ a.id = id := by
  obtain ⟨σ, hσ⟩ := ht.mem_matching_iff.mp hx
  by_contra hnone
  refine hnot (hs.mem_matching_iff.mpr ⟨σ, hσ.of_live fun path a ha => ?_⟩)
  exact h.of_ne a (hσ.live path a ha) fun hid => hnone ⟨σ, path, a, hσ, ha, hid⟩

/-- A store with a new atom has one more, under the id that was next. -/
theorem Sound.atMostOneMore_place (hs : s.Sound) (kind : Kind) (shape : Shape) :
    s.AtMostOneMore s.nextId (s.place kind shape) where
  subset a ha := by
    have hget := hs.mem_atoms.mp ha
    rw [(hs.place kind shape).mem_atoms, get?_place, if_neg (hs.issued hget).ne]
    exact hget
  of_ne a ha hid := by
    rw [(hs.place kind shape).mem_atoms, get?_place, if_neg hid] at ha
    exact hs.mem_atoms.mpr ha

/-- A store without one of its atoms has one less, under the id of that. -/
theorem Sound.atMostOneMore_without (hs : s.Sound) (b : Atom) :
    (s.without b).AtMostOneMore b.id s where
  subset a ha := by
    have hget := (hs.without b).mem_atoms.mp ha
    rw [get?_without] at hget
    split at hget
    · exact nomatch hget
    · exact hs.mem_atoms.mpr hget
  of_ne a ha hid := by
    rw [(hs.without b).mem_atoms, get?_without, if_neg hid]
    exact hs.mem_atoms.mp ha

/-- An operation that makes an atom or reserves an id adds at most the atom under the next id. -/
theorem Step.atMostOneMore {op : Operation} {outcome : Except StoreError Answer}
    (h : s.Step op outcome t) (hs : s.Sound) (hop : op.request?.isSome = true ∨ op = .reserve) :
    s.AtMostOneMore s.nextId t := by
  cases h with
  | full => exact .refl s _
  | missing => exact .refl s _
  | made => exact hs.atMostOneMore_place _ _
  | deleted operation =>
    subst operation
    simp [Operation.request?] at hop
  | reserved => exact ⟨List.Subset.refl _, fun _ ha _ => ha⟩
  | written write =>
    cases op <;> simp [Operation.request?, Operation.write?] at hop write

/-- A deletion takes away at most the atom with the id. -/
theorem Step.atMostOneMore_of_delete {id : Id} {outcome : Except StoreError Answer}
    (h : s.Step (.delete id) outcome t) (hs : s.Sound) : t.AtMostOneMore id s := by
  cases h with
  | full => exact .refl s _
  | missing => exact .refl s _
  | made request => simp [Operation.request?] at request
  | deleted operation =>
    cases operation
    exact hs.atMostOneMore_without _
  | reserved operation => cases operation
  | written write => simp [Operation.write?] at write

/-! ## Other values -/

/-- An operation that writes values changes nothing else. -/
theorem Step.exists_revalued {op : Operation} {outcome : Except StoreError Answer}
    (h : s.Step op outcome t) (hs : s.Sound) (hop : op.write?.isSome = true) :
    ∃ f, s.Revalued f t := by
  cases h with
  | full => exact ⟨_, .refl s⟩
  | missing => exact ⟨_, .refl s⟩
  | made request =>
    cases op <;> simp [Operation.request?, Operation.write?] at hop request
  | deleted operation =>
    subst operation
    simp [Operation.write?] at hop
  | reserved operation =>
    subst operation
    simp [Operation.write?] at hop
  | written => exact ⟨_, hs.revalued_modify _ _ _⟩

/-- When values are written the same atoms match, with the values that they have then. -/
theorem Revalued.matching_eq (h : s.Revalued f t) (hs : s.Sound) (p : Pattern) :
    t.matching p = (s.matching p).map f := by
  have hget : t.get? = fun id => (s.get? id).map f := funext h.get?
  rw [matching, matching, query, query, h.atoms_eq hs, List.filter_map, hget]
  congr 1
  refine List.filter_congr fun a _ => ?_
  exact Pattern.accepts_map h.keeps p

/-! ## Every edit -/

/-- Making an atom or handing out an id keeps the matches in their order, and a match that is new has the
atom that was made at one of its positions. Deleting an atom takes away only matches that have it at a
position, and adds none. Where the values of atoms are written, the same atoms match as before. A pattern
that is weakened, in as many places as one likes, keeps what it matched. -/
theorem matching_monotone (hs : s.Sound) (p : Pattern) :
    (∀ op : Operation, op.request?.isSome = true ∨ op = .reserve →
      (s.matching p).Sublist ((s.perform op).2.matching p) ∧
        ∀ x ∈ (s.perform op).2.matching p, x ∉ s.matching p →
          ∃ σ path a, (s.perform op).2.Assigns p x σ ∧ σ path = some a ∧ a.id = s.nextId) ∧
    (∀ id, ((s.perform (.delete id)).2.matching p).Sublist (s.matching p) ∧
      ∀ x ∈ s.matching p, x ∉ (s.perform (.delete id)).2.matching p →
        ∃ σ path a, s.Assigns p x σ ∧ σ path = some a ∧ a.id = id) ∧
    (∀ op : Operation, op.write?.isSome = true →
      ((s.perform op).2.matching p).map Atom.id = (s.matching p).map Atom.id) ∧
    (∀ f after, s.Revalued f after → after.matching p = (s.matching p).map f) ∧
    ∀ q, Relation.ReflTransGen Pattern.Weakens p q → (s.matching p).Sublist (s.matching q) := by
  have hafter : ∀ op, (s.perform op).2.Sound := fun op => (hs.step op).sound hs
  refine ⟨fun op hop => ?_, fun id => ?_, fun op hop => ?_, fun f after h => h.matching_eq hs p,
    fun q h => ?_⟩
  · have hmore := (hs.step op).atMostOneMore hs hop
    exact ⟨hs.matching_sublist (hafter op) hmore.subset, fun x hx hnot =>
      hmore.exists_position hs (hafter op) hx hnot⟩
  · have hmore := (hs.step (.delete id)).atMostOneMore_of_delete hs
    exact ⟨(hafter _).matching_sublist hs hmore.subset, fun x hx hnot =>
      hmore.exists_position (hafter _) hs hx hnot⟩
  · obtain ⟨f, hrevalued⟩ := (hs.step op).exists_revalued hs hop
    rw [hrevalued.matching_eq hs, List.map_map]
    exact List.map_congr_left fun a _ => hrevalued.keeps.id a
  · exact List.monotone_filter_right _ fun a => Pattern.accepts_of_weakens h

/-- A list of the next id, of itself, and of the next id again. No atom has that id yet. -/
def awaiting : Store :=
  ((empty none).run [.createLink .list ⟨[2, 1, 2], by decide, by decide⟩]).2

/-- A list of a concept "a", a list of three, and any atom. -/
def listOfConcept : Pattern :=
  .link .list [.node .concept "a", .link .list [.any, .any, .any], .any]

/-- A list of three. -/
def listOfThree : Pattern := .link .list [.any, .any, .any]

/-- The list does not match until the node is made. Then it does, also the weaker pattern and whatever the
attention of the node is, and once the node is deleted it does not. -/
theorem matching_monotone_awaiting :
    awaiting.Sound ∧ awaiting.matching listOfConcept = [] ∧
      Relation.ReflTransGen Pattern.Weakens listOfConcept listOfThree ∧
      ∃ s : Store, s = (awaiting.perform (.createNode .concept (some "a"))).2 ∧ s.Sound ∧
        (∃ x ∈ s.matching listOfConcept, x.id = 1 ∧ x ∈ s.matching listOfThree ∧
          ∃ σ path a, s.Assigns listOfConcept x σ ∧ σ path = some a ∧ a.id = 2) ∧
        ((s.perform (.addSti 2 5)).2.matching listOfConcept).map Atom.id = [1] ∧
        (s.perform (.delete 2)).2.matching listOfConcept = [] := by
  have hs : awaiting.Sound := Reachable.sound ⟨none, _, rfl⟩
  have hs' : (awaiting.perform (.createNode .concept (some "a"))).2.Sound := (hs.step _).sound hs
  have hnone : awaiting.matching listOfConcept = [] := rfl
  have hone : (awaiting.perform (.createNode .concept (some "a"))).2.matching listOfConcept
      = [Atom.new 1 .list (.link [2, 1, 2])] := rfl
  have hweakens : Relation.ReflTransGen Pattern.Weakens listOfConcept listOfThree :=
    .tail (.single (.child (.wildcard _ rfl) (some .list) none [] _ false))
      (.child (.wildcard _ rfl) (some .list) none [.any] _ false)
  obtain ⟨hmade, -, -, -, -⟩ := matching_monotone hs listOfConcept
  obtain ⟨-, -, hwritten, -, hweaker⟩ := matching_monotone hs' listOfConcept
  have hmem : Atom.new 1 .list (.link [2, 1, 2])
      ∈ (awaiting.perform (.createNode .concept (some "a"))).2.matching listOfConcept := by
    rw [hone]
    exact List.mem_singleton_self _
  refine ⟨hs, hnone, hweakens, _, rfl, hs', ⟨_, hmem, rfl, (hweaker _ hweakens).subset hmem, ?_⟩, ?_, rfl⟩
  · refine (hmade (.createNode .concept (some "a")) (.inl rfl)).2 _ hmem ?_
    rw [hnone]
    exact List.not_mem_nil
  · rw [hwritten (.addSti 2 5) rfl, hone]
    rfl

end Store

end BeliefGraph
