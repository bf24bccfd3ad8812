import BeliefGraph.Proofs.Store.View

/-!
# Histories of a store

A store is used through eight operations. A history lists the operations that were asked for, each
with its outcome; `Store.run` performs operations one after the other. `Store.Step` says once what an
operation can do: it is refused and nothing changes, or it makes an atom, deletes one, hands out an id
or writes the values of one. What is proved of runs goes through `Step` and `Store.run_induction`.

A history can be read without any store: which ids it handed out, which atoms it made and deleted,
and what was last written to them. The functions on `Event` do that.
-/

namespace BeliefGraph

/-- The references of a link as a caller gives them: words, and no more of them than a word counts. -/
structure References where
  ids : List Id
  words : ∀ id ∈ ids, id < UInt64.size
  countable : ids.length < UInt64.size

/-- A single reference. -/
def References.one (id : Id) (h : id < UInt64.size) : References :=
  ⟨[id], List.forall_mem_singleton.mpr h, Nat.one_lt_two_pow (Nat.succ_ne_zero 63)⟩

/-- What can be asked of a store. -/
inductive Operation
  | createNode (kind : Kind) (label : Option String)
  | createLink (kind : Kind) (outgoing : References)
  | delete (id : Id)
  | reserve
  | setTruth (id : Id) (truth : Truth)
  | setAttention (id : Id) (attention : Attention)
  | reviseTruth (id : Id) (evidence : Truth)
  | addSti (id : Id) (delta : Int32)

/-- What a store answers. -/
inductive Answer
  | made (atom : Atom)
  | reserved (id : Id)
  | truth (value : Truth)
  | sti (value : Int32)
  | done

/-- The id that an answer hands out. -/
def Answer.issued? : Answer → Option Id
  | made a => some a.id
  | reserved id => some id
  | _ => none

/-- The id of the atom that an answer gives. -/
def Answer.made? : Answer → Option Id
  | made a => some a.id
  | _ => none

namespace Operation

/-- The kind and shape of the atom that an operation asks for. -/
def request? : Operation → Option (Kind × Shape)
  | createNode kind label => some (kind, .node label)
  | createLink kind outgoing => some (kind, .link outgoing.ids)
  | _ => none

/-- A change of the values of an atom. -/
structure Write where
  id : Id
  truth : Truth → Truth
  attention : Attention → Attention

/-- The values that an operation asks to write, as functions of the present ones. -/
def write? : Operation → Option Write
  | setTruth id truth => some ⟨id, fun _ => truth, fun x => x⟩
  | setAttention id attention => some ⟨id, fun x => x, fun _ => attention⟩
  | reviseTruth id evidence => some ⟨id, fun current => current.revision evidence, fun x => x⟩
  | addSti id delta =>
    some ⟨id, fun x => x, fun a => { a with sti := addImportance a.sti delta }⟩
  | _ => none

/-- The atom that an operation needs. -/
def subject? : Operation → Option Id
  | delete id => some id
  | op => op.write?.map Write.id

end Operation

/-! ## Performing operations -/

namespace Store

/-- Takes over what an operation gives; a store that refuses stays as it was. -/
def settle {α : Type} (s : Store) (answer : α → Answer) :
    Except StoreError (α × Store) → Except StoreError Answer × Store
  | .ok (a, after) => (.ok (answer a), after)
  | .error e => (.error e, s)

/-- Performs an operation: its outcome, and the store after it. -/
def perform (s : Store) : Operation → Except StoreError Answer × Store
  | .createNode kind label => s.settle .made (s.createNode kind label)
  | .createLink kind outgoing => s.settle .made (s.createLink kind outgoing.ids)
  | .delete id => s.settle (fun _ : Unit => .done) ((s.delete id).map fun after => ((), after))
  | .reserve => (.ok (.reserved s.reserve.1), s.reserve.2)
  | .setTruth id truth =>
    s.settle (fun _ : Unit => .done) ((s.setTruth id truth).map fun after => ((), after))
  | .setAttention id attention =>
    s.settle (fun _ : Unit => .done) ((s.setAttention id attention).map fun after => ((), after))
  | .reviseTruth id evidence => s.settle .truth (s.reviseTruth id evidence)
  | .addSti id delta => s.settle .sti (s.addSti id delta)

/-- Whether a store has as many atoms as it may. -/
def IsFull (s : Store) (limit : Nat) : Prop := s.limit = some limit ∧ limit ≤ s.size

/-- What an operation can do to a store. -/
inductive Step (s : Store) (op : Operation) : Except StoreError Answer → Store → Prop
  | full {limit : Nat} (request : op.request?.isSome) (h : s.IsFull limit) :
      Step s op (.error (.exhausted limit)) s
  | missing {id : Id} (subject : op.subject? = some id) (h : s.get? id = none) :
      Step s op (.error (.notFound id)) s
  | made {kind : Kind} {shape : Shape} (request : op.request? = some (kind, shape))
      (h : ∀ limit, ¬ s.IsFull limit) :
      Step s op (.ok (.made (Atom.new s.nextId kind shape))) (s.place kind shape)
  | deleted {a : Atom} (operation : op = .delete a.id) (h : s.get? a.id = some a) :
      Step s op (.ok .done) (s.without a)
  | reserved (operation : op = .reserve) : Step s op (.ok (.reserved s.nextId)) s.reserve.2
  | written {w : Operation.Write} {a : Atom} {answer : Answer} (write : op.write? = some w)
      (h : s.get? w.id = some a) (quiet : answer.issued? = none) :
      Step s op (.ok answer) (s.modify w.id w.truth w.attention)

/-- Making an atom fails exactly when the store is full. -/
theorem create_cases (s : Store) (kind : Kind) (shape : Shape) :
    (∃ limit, s.IsFull limit ∧ s.create kind shape = .error (.exhausted limit)) ∨
      ((∀ limit, ¬ s.IsFull limit) ∧
        s.create kind shape = .ok (Atom.new s.nextId kind shape, s.place kind shape)) := by
  unfold create
  cases hl : s.limit with
  | none => exact .inr ⟨fun limit h => by simp [IsFull, hl] at h, rfl⟩
  | some limit =>
    simp only
    split
    · next hroom =>
      refine .inr ⟨fun other h => ?_, rfl⟩
      obtain ⟨h₁, h₂⟩ := h
      rw [hl] at h₁
      cases h₁
      exact absurd hroom (Nat.not_lt.mpr h₂)
    · next hfull => exact .inl ⟨limit, ⟨hl, Nat.not_lt.mp hfull⟩, rfl⟩

/-- A creation is a refusal for a full store, or it makes the atom that was asked for. -/
theorem settle_create (s : Store) (op : Operation) {kind : Kind} {shape : Shape}
    (request : op.request? = some (kind, shape)) :
    s.Step op (s.settle .made (s.create kind shape)).1
      (s.settle .made (s.create kind shape)).2 := by
  rcases s.create_cases kind shape with ⟨limit, hfull, hcreate⟩ | ⟨hroom, hcreate⟩
  · rw [hcreate]
    exact Step.full (by rw [request]; rfl) hfull
  · rw [hcreate]
    exact Step.made request hroom

/-- A write is refused for a dead atom, and otherwise changes the values of its atom. -/
theorem step_write (s : Store) {op : Operation} {w : Operation.Write} (answer : Atom → Answer)
    (write : op.write? = some w) (subject : op.subject? = some w.id)
    (quiet : ∀ a, (answer a).issued? = none)
    (hperform : s.perform op = match s.get? w.id with
      | some a => (.ok (answer a), s.modify w.id w.truth w.attention)
      | none => (.error (.notFound w.id), s)) :
    s.Step op (s.perform op).1 (s.perform op).2 := by
  rw [hperform]
  cases hget : s.get? w.id with
  | none => exact Step.missing subject hget
  | some a => exact Step.written write hget (quiet a)

/-- Every operation is one of the steps. -/
theorem Sound.step {s : Store} (hs : s.Sound) (op : Operation) :
    s.Step op (s.perform op).1 (s.perform op).2 := by
  cases op with
  | createNode kind label => exact s.settle_create _ rfl
  | createLink kind outgoing => exact s.settle_create _ rfl
  | reserve => exact Step.reserved rfl
  | delete id =>
    simp only [perform, Store.delete]
    cases hg : s.get? id with
    | none => exact Step.missing rfl hg
    | some a =>
      have hid : a.id = id := hs.keyed hg
      subst hid
      exact Step.deleted rfl hg
  | setTruth id truth =>
    refine s.step_write (fun _ => .done) rfl rfl (fun _ => rfl) ?_
    simp only [perform, setTruth, updateTruth]
    cases s.get? id <;> rfl
  | setAttention id attention =>
    refine s.step_write (fun _ => .done) rfl rfl (fun _ => rfl) ?_
    simp only [perform, setAttention, updateAttention]
    cases s.get? id <;> rfl
  | reviseTruth id evidence =>
    refine s.step_write (fun a => .truth (a.truth.revision evidence)) rfl rfl (fun _ => rfl) ?_
    simp only [perform, reviseTruth, updateTruth]
    cases s.get? id <;> rfl
  | addSti id delta =>
    refine s.step_write (fun a => .sti (addImportance a.attention.sti delta)) rfl rfl (fun _ => rfl) ?_
    simp only [perform, addSti, updateAttention]
    cases s.get? id <;> rfl

/-- A step leads from a sound store to a sound store. -/
theorem Step.sound {s after : Store} {op : Operation} {outcome : Except StoreError Answer}
    (h : s.Step op outcome after) (hs : s.Sound) : after.Sound := by
  cases h with
  | full => exact hs
  | missing => exact hs
  | made => exact hs.place _ _
  | deleted => exact hs.without _
  | reserved => exact hs.reserve
  | written => exact hs.modify _ _ _

end Store

/-! ## Runs -/

/-- An operation that was asked for, and what came of it. -/
structure Event where
  operation : Operation
  outcome : Except StoreError Answer

namespace Store

/-- Performs operations one after the other: the history, and the store at its end. -/
def run : Store → List Operation → List Event × Store
  | s, [] => ([], s)
  | s, op :: ops =>
    let first := s.perform op
    let rest := run first.2 ops
    (⟨op, first.1⟩ :: rest.1, rest.2)

/-- A store that some operations lead to, from a store without atoms. -/
def Reachable (s : Store) : Prop :=
  ∃ limit ops, ((empty limit).run ops).2 = s

/-- What a step carries from a history to the next one holds of the history of every run. -/
theorem run_induction {P : List Event → Store → Prop}
    (step : ∀ {h s op outcome after}, s.Sound → s.Step op outcome after → P h s →
      P (h ++ [⟨op, outcome⟩]) after)
    (ops : List Operation) {h : List Event} {s : Store} (hs : s.Sound) (hp : P h s) :
    P (h ++ (s.run ops).1) (s.run ops).2 := by
  -- The history grows at its end, while the operations are taken from the front.
  induction ops generalizing h s with
  | nil => simpa [run] using hp
  | cons op ops ih =>
    have hstep := hs.step op
    have := ih (hstep.sound hs) (step hs hstep hp)
    simpa [run] using this

/-- A sound store is sound after every run. -/
theorem Sound.run {s : Store} (hs : s.Sound) (ops : List Operation) : (s.run ops).2.Sound :=
  run_induction (P := fun _ s => s.Sound) (fun hs h _ => h.sound hs) ops (h := []) hs hs

/-- Every store that operations lead to is sound. -/
theorem Reachable.sound {s : Store} (h : s.Reachable) : s.Sound := by
  obtain ⟨limit, ops, rfl⟩ := h
  exact (Sound.empty limit).run ops

/-- An id was handed out and has no atom. -/
def Spent (s : Store) (id : Id) : Prop := id < s.nextId ∧ s.get? id = none

/-- No operation makes an atom under an id that is spent. -/
theorem Step.spent {s after : Store} {op : Operation} {outcome : Except StoreError Answer} {id : Id}
    (h : s.Step op outcome after) (hid : s.Spent id) : after.Spent id := by
  obtain ⟨hlt, hnone⟩ := hid
  cases h with
  | full => exact ⟨hlt, hnone⟩
  | missing => exact ⟨hlt, hnone⟩
  | made => exact ⟨Nat.lt_succ_of_lt hlt, by rw [get?_place, if_neg (Nat.ne_of_lt hlt), hnone]⟩
  | deleted => exact ⟨hlt, by rw [get?_without, hnone, ite_self]⟩
  | reserved => exact ⟨Nat.lt_succ_of_lt hlt, hnone⟩
  | written => exact ⟨hlt, by rw [get?_modify, hnone, Option.map_none, ite_self]⟩

/-- An id that is spent stays so through every run. -/
theorem Spent.run {s : Store} {id : Id} (h : s.Spent id) (hs : s.Sound) (ops : List Operation) :
    (s.run ops).2.Spent id :=
  run_induction (P := fun _ s => s.Spent id) (fun _ hstep hid => hstep.spent hid) ops (h := []) hs h

end Store

/-! ## Reading a history -/

namespace Event

/-- The id that an event handed out. -/
def issued? (e : Event) : Option Id :=
  match e.outcome with
  | .ok answer => answer.issued?
  | .error _ => none

/-- The id of the atom that an event made. -/
def made? (e : Event) : Option Id :=
  match e.outcome with
  | .ok answer => answer.made?
  | .error _ => none

/-- An event makes an atom of a kind and shape. -/
def Makes (e : Event) (id : Id) (kind : Kind) (shape : Shape) : Prop :=
  e.made? = some id ∧ e.operation.request? = some (kind, shape)

/-- An event deletes the atom with an id. -/
def Deletes (e : Event) (id : Id) : Prop :=
  e.operation = .delete id ∧ e.outcome.isOk

/-- An event hands out an id that is for no atom. -/
def Reserves (e : Event) (id : Id) : Prop :=
  e.operation = .reserve ∧ e.issued? = some id

/-- What an event writes to the atom with an id. -/
def write? (e : Event) (id : Id) : Option Operation.Write :=
  if e.outcome.isOk then e.operation.write?.filter (·.id == id) else none

/-- The truth of the atom with an id after an event. -/
def truthAfter (id : Id) (current : Truth) (e : Event) : Truth :=
  match e.write? id with
  | some w => w.truth current
  | none => current

/-- The attention of the atom with an id after an event. -/
def attentionAfter (id : Id) (current : Attention) (e : Event) : Attention :=
  match e.write? id with
  | some w => w.attention current
  | none => current

end Event

end BeliefGraph
