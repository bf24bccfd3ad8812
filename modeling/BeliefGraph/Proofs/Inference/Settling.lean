import BeliefGraph.Proofs.Inference.DoubleLoop

/-!
# How forward chaining settles

In a store without a limit no round is cut short, so a run ends in one of two ways: its rounds are used
up, or a round concludes nothing. A run settles when one of its rounds made nothing. There is nothing
left to conclude then (`Progress.Settles.conclusions`), another run makes nothing either, and what could
be joined to a first edge of a round has been joined (`Store.join_of_conclusions`). With a target these
are the edges that have it at one of their ends, and without one they are all edges.
-/

namespace BeliefGraph

namespace Progress

variable {p : Progress} {target : Option Id}

/-- A store without a limit takes a round as a whole, with a link for each conclusion. -/
theorem afterRound_of_open (hs : p.store.Open) (target : Option Id) :
    (p.afterRound target).failure = none ∧ (p.afterRound target).store.Open ∧
      (Growth.ofConclusions p.store (p.store.conclusions target)).atoms.length
        = (p.store.conclusions target).length := by
  obtain ⟨hok, hdescribes⟩ := hs.describes_ofConclusions (p.store.conclusions target)
  have hgrown := (chained_afterRound hs.sound target).grown
  exact ⟨hok, ⟨hgrown.sound, hgrown.limit.trans hs.unlimited⟩, hdescribes.length_eq.symm⟩

/-- In a store without a limit a run stops with a round that concludes nothing, or goes on. -/
theorem forward_succ_cases_of_open (hs : p.store.Open) (target : Option Id) :
    (p.store.conclusions target = [] ∧ ∀ n, p.forward target (n + 1) = p.beginForwardRound) ∨
      ((Growth.ofConclusions p.store (p.store.conclusions target)).atoms ≠ [] ∧
        ∀ n, p.forward target (n + 1) = (p.afterRound target).forward target n) := by
  obtain ⟨hok, -, hlength⟩ := afterRound_of_open hs target
  rcases p.forward_succ_cases target with hstop | ⟨hfailed, -⟩ | ⟨hne, -, hon⟩
  · exact .inl hstop
  · rw [hok] at hfailed
    cases hfailed
  · refine .inr ⟨fun hnone => hne ?_, hon⟩
    rw [hnone] at hlength
    exact List.length_eq_zero_iff.mp hlength.symm

/-- One of so many rounds made nothing. -/
def Settles (p : Progress) (target : Option Id) (rounds : Nat) : Prop :=
  ∃ before < rounds, (p.forward target (before + 1)).created = (p.forward target before).created

/-- Each round but the last makes a link. -/
theorem exists_made_of_open (hs : p.store.Open) (hok : p.failure = none) (target : Option Id)
    (rounds : Nat) :
    ∃ made, p.Chained made (p.forward target rounds) ∧ (p.forward target rounds).failure = none ∧
      (p.forward target rounds).ledger.forwardRounds
        ≤ p.ledger.forwardRounds + made.length + 1 ∧
      (made.length < rounds → p.Settles target rounds) := by
  induction rounds generalizing p with
  | zero => exact ⟨[], .refl hs.sound, hok, Nat.le_add_right _ 1, by simp⟩
  | succ rounds ih =>
    obtain ⟨hok', hopen, -⟩ := afterRound_of_open hs target
    rcases forward_succ_cases_of_open hs target with ⟨-, hstop⟩ | ⟨hmakes, hon⟩
    · rw [hstop]
      -- The first round was the last one, and it made nothing.
      refine ⟨[], ⟨(List.append_nil _).symm, .refl hs.sound, rfl⟩, hok, Nat.le_refl _, fun _ => ?_⟩
      exact ⟨0, Nat.succ_pos rounds, by rw [hstop, forward]; rfl⟩
    · obtain ⟨made, hchained, hunfailed, hrounds, hsettles⟩ := ih hopen hok'
      -- This round is paid for by the links that it made.
      have hpos := List.length_pos_of_ne_nil hmakes
      rw [hon]
      refine ⟨_, (chained_afterRound hs.sound target).trans hchained, hunfailed, ?_, fun hlt => ?_⟩
      · rw [List.length_append]
        have hbegun : (p.afterRound target).ledger.forwardRounds = p.ledger.forwardRounds + 1 := rfl
        omega
      · rw [List.length_append] at hlt
        obtain ⟨before, hbefore, hsame⟩ := hsettles (by omega)
        exact ⟨before + 1, Nat.succ_lt_succ hbefore, by rw [hon, hon, hsame]⟩

/-- After a round that made nothing there is nothing to conclude. -/
theorem Settles.conclusions {rounds : Nat} (h : p.Settles target rounds) (hs : p.store.Open) :
    (p.forward target rounds).store.conclusions target = [] := by
  obtain ⟨before, hlt, hsame⟩ := h
  induction before generalizing p rounds with
  | zero =>
    obtain ⟨n, rfl⟩ := Nat.exists_eq_add_of_lt hlt
    rcases forward_succ_cases_of_open hs target with ⟨hnone, hstop⟩ | ⟨hmakes, hon⟩
    · rw [hstop]
      exact hnone
    · rw [hon, forward, forward, (chained_afterRound hs.sound target).created] at hsame
      -- A round that goes on has made a link, so it is not the one that made nothing.
      exact absurd (List.self_eq_append_right.mp hsame.symm) hmakes
  | succ before ih =>
    obtain ⟨n, rfl⟩ := Nat.exists_eq_add_of_lt hlt
    rcases forward_succ_cases_of_open hs target with ⟨hnone, hstop⟩ | ⟨-, hon⟩
    · rw [hstop]
      exact hnone
    · rw [hon, hon] at hsame
      rw [hon]
      exact ih (afterRound_of_open hs target).2.1 (by omega) hsame

/-- A run that has nothing to conclude makes nothing. -/
theorem forward_of_conclusions (h : p.store.conclusions target = []) (rounds : Nat) :
    (p.forward target rounds).store = p.store ∧ (p.forward target rounds).created = p.created ∧
      (p.forward target rounds).failure = p.failure := by
  cases rounds with
  | zero => exact ⟨rfl, rfl, rfl⟩
  | succ rounds =>
    have hbegun : p.beginForwardRound.store.conclusions target = [] := h
    simp only [forward, hbegun]
    exact ⟨rfl, rfl, rfl⟩

end Progress

namespace Store

variable {s : Store} {target : Option Id}

/-- Where nothing is left to conclude, an edge with which a round can start has been joined to each edge
that it meets. -/
theorem join_of_conclusions {u v : Statement} (hs : s.Sound) (h : s.conclusions target = [])
    (hu : s.States u) (hat : ∀ t ∈ target, u.source = t ∨ u.target = t) (hv : s.States v)
    (hmeets : u.target = v.source) : s.States (u.join v) := by
  by_contra hnew
  obtain ⟨e, he, rfl⟩ := states_iff_edge.mp hu
  obtain ⟨f, hf, rfl⟩ := states_iff_edge.mp hv
  have hstarts : e.startsToward target = true := by
    refine (Option.all_eq_true _ _).mpr fun t ht => ?_
    rcases hat t ht with hat | hat
    · simp [Edge.touches, Edge.source, hat]
    · simp [Edge.touches, Edge.target, hat]
  have hconcluded := (mem_conclusions_toward hs).mpr ⟨hnew, e, he, hstarts, f, hf, hmeets, rfl⟩
  rw [h] at hconcluded
  exact absurd hconcluded List.not_mem_nil

/-- Where nothing at all is left to conclude, each walk has an edge of its own. -/
theorem states_of_conclusions {t : Statement} {path : List Statement} (hs : s.Sound)
    (h : s.conclusions none = []) (hwalk : Walk s.States t path) : s.States t :=
  hwalk.of_closed fun _ _ hu hv hmeets => join_of_conclusions hs h hu (by simp) hv hmeets

end Store

namespace Space

variable {space : Space} {target : Option Id} {rounds : Nat}

/-- One of so many rounds of forward chaining added nothing, and so it was the last. -/
def Settles (space : Space) (target : Option Id) (rounds : Nat) : Prop :=
  ∃ before < rounds, (space.forward target (before + 1)).1 = (space.forward target before).1

/-- In a store without a limit forward chaining answers what its rounds created. -/
theorem forward_eq_ok (hs : space.store.Open) (target : Option Id) (rounds : Nat) :
    (space.forward target rounds).1 = .ok (space.startRun.forward target rounds).created := by
  obtain ⟨-, -, hok, -⟩ :=
    Progress.exists_made_of_open (p := space.startRun) hs rfl target rounds
  rw [forward, finishRun, Progress.result, hok]

/-- The answers of two runs are the same when what they made is. -/
theorem settles_iff (hs : space.store.Open) :
    space.Settles target rounds ↔ space.startRun.Settles target rounds := by
  rw [Settles, Progress.Settles]
  simp only [forward_eq_ok hs, Except.ok.injEq]

/-- A space in which forward chaining has settled has nothing left to conclude. -/
theorem Settles.conclusions (h : space.Settles target rounds) (hs : space.store.Open) :
    (space.forward target rounds).2.store.conclusions target = [] :=
  ((settles_iff hs).mp h).conclusions hs

end Space

end BeliefGraph
