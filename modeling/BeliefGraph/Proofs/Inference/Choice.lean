import BeliefGraph.Proofs.Inference.Growth

/-!
# The choice of a rule

A rule can be applied when each of its premises matches a live atom, and a round finds a rule exactly
when one can be (`Choice.exists_select_iff`). Patterns only ask for what is there: with more ids that
resolve and more atoms to look at, what matched still matches. So a rule that can be applied in a store
can be applied in what the store grows into (`Store.Grown.binds`).
-/

namespace BeliefGraph

/-! ## Patterns -/

namespace Pattern

variable {resolve more : Id → Option Atom}

mutual

/-- What matches goes on to match when more ids resolve. -/
theorem accepts_mono (h : ∀ id a, resolve id = some a → more id = some a) :
    ∀ (p : Pattern) (a : Atom), accepts resolve p a = true → accepts more p a = true
  | ⟨kind, label, children, wildcard⟩, a => by
    simp only [accepts, Bool.or_eq_true, Bool.and_eq_true]
    exact Or.imp_right (And.imp_right (acceptsAll_mono h children a.outgoing))

/-- What matches one by one goes on to match when more ids resolve. -/
theorem acceptsAll_mono (h : ∀ id a, resolve id = some a → more id = some a) :
    ∀ (ps : List Pattern) (ids : List Id),
      acceptsAll resolve ps ids = true → acceptsAll more ps ids = true
  | [], [] => fun _ => by rw [acceptsAll]
  | [], _ :: _ => fun hnone => by simp [acceptsAll] at hnone
  | _ :: _, [] => fun hnone => by simp [acceptsAll] at hnone
  | p :: ps, id :: ids => by
    simp only [acceptsAll, Bool.and_eq_true, Option.any_eq_true]
    rintro ⟨⟨a, hid, ha⟩, hrest⟩
    exact ⟨⟨a, h id a hid, accepts_mono h p a ha⟩, acceptsAll_mono h ps ids hrest⟩

end

end Pattern

namespace Choice

variable {s : Store} {complexity : Float32} {rules : List Rule} {premises : List Pattern}
  {bound : List Atom} {choice : Choice}

/-- Each premise is bound to its first match. -/
theorem bind?_eq_some :
    bind? s premises = some bound ↔
      List.Forall₂ (fun p a => (s.matching p).head? = some a) premises bound := by
  rw [bind?]
  induction premises generalizing bound with
  | nil => simp [eq_comm]
  | cons p ps ih =>
    simp only [List.mapM_cons, Option.bind_eq_bind, Option.pure_def, Option.bind_eq_some_iff,
      Option.some.injEq, List.forall₂_cons_left_iff, ih]
    constructor
    · rintro ⟨a, ha, as, has, rfl⟩
      exact ⟨a, as, ha, has, rfl⟩
    · rintro ⟨a, as, ha, has, rfl⟩
      exact ⟨a, ha, as, has, rfl⟩

/-- Premises can be bound when each of them matches a live atom. -/
theorem exists_bind?_iff : (∃ bound, bind? s premises = some bound) ↔
    ∀ p ∈ premises, ∃ a ∈ s.atoms, p.accepts s.get? a = true := by
  simp only [bind?_eq_some]
  induction premises with
  | nil => exact ⟨fun _ p hp => absurd hp List.not_mem_nil, fun _ => ⟨[], .nil⟩⟩
  | cons p ps ih =>
    have hhead : (∃ a, (s.matching p).head? = some a) ↔
        ∃ a ∈ s.atoms, p.accepts s.get? a = true := by
      rw [← Option.isSome_iff_exists, List.isSome_head?, Store.matching, Store.query, ne_eq,
        List.filter_eq_nil_iff]
      push Not
      rfl
    rw [List.forall_mem_cons, ← ih, ← hhead]
    constructor
    · rintro ⟨_, _ | ⟨ha, has⟩⟩
      exact ⟨⟨_, ha⟩, ⟨_, has⟩⟩
    · rintro ⟨⟨a, ha⟩, as, has⟩
      exact ⟨a :: as, .cons ha has⟩

/-- A premise is bound to a live atom. -/
theorem mem_of_bind? (h : bind? s premises = some bound) {a : Atom} (ha : a ∈ bound) :
    a ∈ s.atoms := by
  have hall := bind?_eq_some.mp h
  induction hall with
  | nil => exact absurd ha List.not_mem_nil
  | cons hhead _ ih =>
    rcases List.mem_cons.mp ha with rfl | ha
    · exact (List.mem_filter.mp (List.mem_of_head? hhead)).1
    · exact ih (bind?_eq_some.mpr ‹_›) ha

/-! ## The choice of a round -/

/-- A rule wins only with all its premises bound. -/
theorem better_eq_some {best : Option Choice} {rule : Rule}
    (h : better s complexity best rule = some choice) :
    best = some choice ∨ (choice.rule = rule ∧ bind? s rule.premises = some choice.bound) := by
  have hrule : ofRule? s complexity rule = some choice →
      choice.rule = rule ∧ bind? s rule.premises = some choice.bound := by
    intro h
    obtain ⟨bound, hbound, rfl⟩ := Option.map_eq_some_iff.mp h
    exact ⟨rfl, hbound⟩
  unfold better at h
  split at h
  · exact .inr (hrule h)
  · split at h
    · exact .inl h
    · rcases Option.or_eq_some_iff.mp h with h | ⟨-, h⟩
      · exact .inr (hrule h)
      · exact .inl h

/-- The rule of a choice is one of the rules, and its premises are bound to what the choice says. -/
theorem select_sound (h : select s complexity rules = some choice) :
    choice.rule ∈ rules ∧ bind? s choice.rule.premises = some choice.bound := by
  -- The fold starts with no choice, so what it ends with was chosen on the way.
  have hfold : ∀ (rules : List Rule) (best : Option Choice),
      rules.foldl (better s complexity) best = some choice →
        best = some choice ∨
          (choice.rule ∈ rules ∧ bind? s choice.rule.premises = some choice.bound) := by
    intro rules
    induction rules with
    | nil => exact fun best h => .inl h
    | cons rule rules ih =>
      intro best h
      rcases ih _ h with h | ⟨hmem, hbind⟩
      · refine (better_eq_some h).imp_right ?_
        rintro ⟨rfl, hbind⟩
        exact ⟨List.mem_cons_self, hbind⟩
      · exact .inr ⟨List.mem_cons_of_mem rule hmem, hbind⟩
  exact (hfold rules none h).resolve_left (by simp)

/-- The best choice is there once the premises of a rule can be bound. -/
theorem isSome_better (best : Option Choice) (rule : Rule) :
    (better s complexity best rule).isSome ↔
      best.isSome ∨ ∃ bound, bind? s rule.premises = some bound := by
  have hrule : (ofRule? s complexity rule).isSome ↔ ∃ bound, bind? s rule.premises = some bound := by
    rw [ofRule?, Option.isSome_map, Option.isSome_iff_exists]
  unfold better
  split
  · simpa using hrule
  · split
    · simp
    · simp

end Choice

/-- Some rule can have its premises bound. -/
def Store.Binds (s : Store) (rules : List Rule) : Prop :=
  ∃ r ∈ rules, ∃ bound, Choice.bind? s r.premises = some bound

/-- A round finds a rule exactly when the premises of one can be bound. -/
theorem Choice.exists_select_iff (s : Store) (complexity : Float32) (rules : List Rule) :
    (∃ choice, select s complexity rules = some choice) ↔ s.Binds rules := by
  have hfold : ∀ (rules : List Rule) (best : Option Choice),
      (rules.foldl (better s complexity) best).isSome ↔ best.isSome ∨ s.Binds rules := by
    intro rules
    induction rules with
    | nil => simp [Store.Binds]
    | cons rule rules ih =>
      intro best
      rw [List.foldl_cons, ih, isSome_better, Store.Binds, Store.Binds, List.exists_mem_cons_iff,
        or_assoc]
  rw [← Option.isSome_iff_exists, select, hfold rules none]
  simp

/-- Rules that can be bound in a store can be bound in what it grows into. -/
theorem Store.Grown.binds {s after : Store} {made : List Atom} {rules : List Rule}
    (h : s.Grown made after) (hs : s.Sound) (hbinds : s.Binds rules) : after.Binds rules := by
  obtain ⟨r, hr, hbound⟩ := hbinds
  refine ⟨r, hr, Choice.exists_bind?_iff.mpr fun p hp => ?_⟩
  obtain ⟨a, ha, haccepts⟩ := Choice.exists_bind?_iff.mp hbound p hp
  have hmore : ∀ id b, s.get? id = some b → after.get? id = some b := fun _ _ hb => h.get? hs hb
  refine ⟨a, ?_, Pattern.accepts_mono hmore p a haccepts⟩
  rw [h.atoms]
  exact List.mem_append_left _ ha

end BeliefGraph
