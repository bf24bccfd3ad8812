import Mathlib.Data.Set.Function
import BeliefGraph.Proofs.Snapshot.Order
import BeliefGraph.Proofs.Store.View
import BeliefGraph.Snapshot.Import

/-!
# Records made again in a store

A transfer carries records into a store under new ids. What it has come to after some of them is
`Transfer.Carried`: the new ids are handed out by the store and are different for different old ids,
each record that was made stands in the store as its image under the renaming, and nothing else was
added. Reserving an id and making an atom keep this, so the loops over nodes, references and links do.

References are there when a link is made, since links come in an order in which each stands behind
those that it references (`InOrder`). A transfer therefore never meets a cycle on its way.
-/

namespace BeliefGraph

/-- A shape with its references renamed. -/
def Shape.rename (f : Id → Id) : Shape → Shape
  | .node label => .node label
  | .link outgoing => .link (outgoing.map f)

/-- An atom under another id, with its references renamed in the same way. -/
def Atom.rename (f : Id → Id) (a : Atom) : Atom :=
  { a with id := f a.id, shape := a.shape.rename f }

/-- Only the names of the references matter when a shape is renamed. -/
theorem Shape.rename_congr {f g : Id → Id} {shape : Shape} (h : ∀ id ∈ shape.outgoing, f id = g id) :
    shape.rename f = shape.rename g := by
  cases shape with
  | node label => rfl
  | link outgoing => exact congrArg Shape.link (List.map_congr_left h)

/-- Only the names of an atom and of its references matter when it is renamed. -/
theorem Atom.rename_congr {f g : Id → Id} {a : Atom} (hid : f a.id = g a.id)
    (h : ∀ id ∈ a.outgoing, f id = g id) : a.rename f = a.rename g := by
  rw [Atom.rename, Atom.rename, hid, Shape.rename_congr h]

/-- One of some records has the id, or references it. -/
def Mentioned (records : List Atom) (id : Id) : Prop :=
  ∃ a ∈ records, a.id = id ∨ id ∈ a.outgoing

/-- A store has room for some more atoms. -/
def Store.HasRoomFor (s : Store) (count : Nat) : Prop :=
  ∀ limit, s.limit = some limit → s.size + count ≤ limit

/-- A store without a limit has room for any number of atoms. -/
theorem Store.hasRoomFor_of_unlimited {s : Store} (h : s.limit = none) (count : Nat) :
    s.HasRoomFor count := by
  intro limit hl
  rw [h] at hl
  cases hl

/-- Room for some atoms is room for fewer. -/
theorem Store.HasRoomFor.mono {s : Store} {more count : Nat} (h : s.HasRoomFor more)
    (hle : count ≤ more) : s.HasRoomFor count :=
  fun limit hl => Nat.le_trans (Nat.add_le_add_left hle s.size) (h limit hl)

/-- Room for the rest, with the first record moved over to those that were made. -/
theorem Store.HasRoomFor.concat {s : Store} {made records : List Atom} {a : Atom}
    (h : s.HasRoomFor (made.length + (a :: records).length)) :
    s.HasRoomFor ((made ++ [a]).length + records.length) := by
  rw [List.length_append, List.length_singleton, Nat.add_assoc, Nat.add_comm 1]
  exact h

namespace Snapshot.Transfer

/-! ## New ids -/

/-- The new id of what was met; zero for anything else. -/
def rename (t : Transfer) (id : Id) : Id := (t.target? id).getD 0

/-- The id and the references of a record have new ids. -/
structure Covers (t : Transfer) (a : Atom) : Prop where
  id : (t.target? a.id).isSome = true
  outgoing : ∀ id ∈ a.outgoing, (t.target? id).isSome = true

/-- What has a new id keeps it. -/
def Extends (t after : Transfer) : Prop :=
  ∀ {id new}, t.target? id = some new → after.target? id = some new

variable {t after : Transfer} {s : Store} {a : Atom} {id : Id}

/-- The new id of an atom is the target that the transfer has for it. -/
theorem rename_of_target? {new : Id} (h : t.target? id = some new) : t.rename id = new := by
  rw [rename, h, Option.getD_some]

/-- An id that has a target has its new id for a target. -/
theorem target?_of_isSome (h : (t.target? id).isSome = true) : t.target? id = some (t.rename id) := by
  obtain ⟨new, hnew⟩ := Option.isSome_iff_exists.mp h
  rw [rename_of_target? hnew, hnew]

theorem Extends.refl (t : Transfer) : t.Extends t := fun h => h

theorem Extends.trans {last : Transfer} (h : t.Extends after) (h' : after.Extends last) :
    t.Extends last := fun hid => h' (h hid)

/-- What has a new id has one later on. -/
theorem Extends.isSome (h : t.Extends after) (hid : (t.target? id).isSome = true) :
    (after.target? id).isSome = true := by
  rw [h (target?_of_isSome hid), Option.isSome_some]

/-- A new id is the same later on. -/
theorem Extends.rename_eq (h : t.Extends after) (hid : (t.target? id).isSome = true) :
    after.rename id = t.rename id :=
  rename_of_target? (h (target?_of_isSome hid))

/-- A record whose references have new ids stays such a one. -/
theorem Extends.covers (h : t.Extends after) (ha : t.Covers a) : after.Covers a :=
  ⟨h.isSome ha.id, fun id hid => h.isSome (ha.outgoing id hid)⟩

/-- What was carried over is carried over in the same way later on. -/
theorem Extends.rename_atom (h : t.Extends after) (ha : t.Covers a) :
    a.rename after.rename = a.rename t.rename :=
  Atom.rename_congr (h.rename_eq ha.id) fun id hid => h.rename_eq (ha.outgoing id hid)

/-- The transfer into another state of its store, with the next id for something more. -/
def assign (t : Transfer) (id : Id) (store : Store) (dangling : Nat) : Transfer :=
  ⟨store, t.remap.insert id t.store.nextId, dangling⟩

/-- To assign an id changes the target of this id alone. -/
theorem target?_assign (t : Transfer) (id : Id) (store : Store) (dangling : Nat) (x : Id) :
    (t.assign id store dangling).target? x
      = if x = id then some t.store.nextId else t.target? x := by
  rw [assign, target?, Std.TreeMap.getElem?_insert]
  simp only [Std.LawfulEqCmp.compare_eq_iff_eq, eq_comm (a := id)]
  rfl

/-- To reserve an id for a dangling reference changes the target of this reference alone. -/
theorem target?_reserve (t : Transfer) (id x : Id) :
    (t.reserve id).target? x = if x = id then some t.store.nextId else t.target? x :=
  target?_assign t id _ _ x

/-- To assign a new id to what has none keeps all new ids. -/
theorem extends_assign {store : Store} {dangling : Nat} (hnew : t.target? id = none) :
    t.Extends (t.assign id store dangling) := by
  intro x new hx
  rw [target?_assign, if_neg, hx]
  rintro rfl
  rw [hnew] at hx
  cases hx

/-- New ids are handed out one after the other, from the next id of a store on. -/
structure Renames (t : Transfer) (s : Store) : Prop where
  next : s.nextId ≤ t.store.nextId
  fresh : ∀ {old new}, t.target? old = some new → s.nextId ≤ new ∧ new < t.store.nextId
  injective : ∀ {x y new}, t.target? x = some new → t.target? y = some new → x = y

/-- An id that the counter just issued is fresh and differs from all ids issued before. -/
theorem Renames.assign (h : t.Renames s) (id : Id) {store : Store} (dangling : Nat)
    (hnext : store.nextId = t.store.nextId + 1) : (t.assign id store dangling).Renames s where
  next := by
    show s.nextId ≤ store.nextId
    rw [hnext]
    exact Nat.le_succ_of_le h.next
  fresh := by
    intro old new hold
    show s.nextId ≤ new ∧ new < store.nextId
    rw [hnext]
    rw [target?_assign] at hold
    split at hold
    · cases hold
      exact ⟨h.next, Nat.lt_succ_self _⟩
    · exact ⟨(h.fresh hold).1, Nat.lt_succ_of_lt (h.fresh hold).2⟩
  injective := by
    intro x y new hx hy
    rw [target?_assign] at hx hy
    split at hx <;> split at hy
    · next hxid hyid => rw [hxid, hyid]
    · cases hx
      exact absurd (h.fresh hy).2 (Nat.lt_irrefl _)
    · cases hy
      exact absurd (h.fresh hx).2 (Nat.lt_irrefl _)
    · exact h.injective hx hy

/-! ## What a transfer has come to -/

/-- What a transfer into a store has come to when it has made some records. The ids of all records are
known from the start. -/
structure Carried (t : Transfer) (s : Store) (known : Std.TreeSet Id) (made : List Atom) : Prop where
  sound : t.store.Sound
  limit : t.store.limit = s.limit
  size : t.store.size = s.size + made.length
  renames : t.Renames s
  /-- A record has its new id from when it is made. -/
  waits : ∀ {id}, id ∈ known → (t.target? id).isSome = true → ∃ a ∈ made, a.id = id
  covers : ∀ a ∈ made, t.Covers a
  /-- What was in the store stays. -/
  kept : ∀ id < s.nextId, t.store.get? id = s.get? id
  image : ∀ a ∈ made, t.store.get? (t.rename a.id) = some (a.rename t.rename)
  /-- Nothing else was put into the store. -/
  only : ∀ {new}, s.nextId ≤ new → (t.store.get? new).isSome = true → ∃ a ∈ made, t.rename a.id = new
  /-- Records that were made later have larger ids. -/
  upwards : made.Pairwise fun a b => t.rename a.id < t.rename b.id

/-- A transfer that just began has made no records. -/
theorem Carried.start {s : Store} (hs : s.Sound) (known : Std.TreeSet Id) :
    Carried ⟨s, ∅, 0⟩ s known [] := by
  have hnone : ∀ id, target? ⟨s, ∅, 0⟩ id = none := fun id => Std.TreeMap.getElem?_emptyc
  refine ⟨hs, rfl, rfl, ⟨Nat.le_refl _, ?_, ?_⟩, ?_, by simp, fun _ _ => rfl, by simp, ?_, .nil⟩
  · intro old new h
    rw [hnone] at h
    cases h
  · intro x y new h
    rw [hnone] at h
    cases h
  · intro id _ h
    rw [hnone] at h
    cases h
  · intro new hnew h
    rw [hs.get?_of_le hnew] at h
    cases h

variable {known : Std.TreeSet Id} {made : List Atom}

/-- What the records that were made mention has a new id. -/
theorem Carried.isSome_of_mentioned (h : t.Carried s known made) (hid : Mentioned made id) :
    (t.target? id).isSome = true := by
  obtain ⟨a, ha, rfl | hid⟩ := hid
  · exact (h.covers a ha).id
  · exact (h.covers a ha).outgoing id hid

/-- No two ids that the made records mention have one new id. -/
theorem Carried.injOn (h : t.Carried s known made) : Set.InjOn t.rename {id | Mentioned made id} := by
  intro x hx y hy hxy
  apply h.renames.injective (target?_of_isSome (h.isSome_of_mentioned hx))
  rw [hxy]
  exact target?_of_isSome (h.isSome_of_mentioned hy)

/-- A reference to nothing stays one: the new ids that resolve are those of records. -/
theorem Carried.get?_rename_of_dangling (h : t.Carried s known made) (hid : Mentioned made id)
    (hdangling : ∀ a ∈ made, a.id ≠ id) : t.store.get? (t.rename id) = none := by
  by_contra hsome
  have hnew := (h.renames.fresh (target?_of_isSome (h.isSome_of_mentioned hid))).1
  obtain ⟨a, ha, hrename⟩ := h.only hnew (Option.isSome_iff_ne_none.mpr hsome)
  exact hdangling a ha (h.injOn ⟨a, ha, .inl rfl⟩ hid hrename)

/-- Images stay what they are while the transfer goes on. -/
theorem Carried.image_extends (h : t.Carried s known made) (hext : t.Extends after)
    (hget : ∀ id < t.store.nextId, after.store.get? id = t.store.get? id) (ha : a ∈ made) :
    after.store.get? (after.rename a.id) = some (a.rename after.rename) := by
  have hcovers := h.covers a ha
  have hlt := (h.renames.fresh (target?_of_isSome hcovers.id)).2
  rw [hext.rename_eq hcovers.id, hext.rename_atom hcovers, hget _ hlt, h.image a ha]

/-- Records that were made keep the order of their new ids. -/
theorem Carried.upwards_extends (h : t.Carried s known made) (hext : t.Extends after) :
    made.Pairwise fun a b => after.rename a.id < after.rename b.id := by
  refine h.upwards.imp_of_mem fun {a b} ha hb hlt => ?_
  rwa [hext.rename_eq (h.covers a ha).id, hext.rename_eq (h.covers b hb).id]

/-- Ids that stand for nothing among the records are handed out to none of them. -/
theorem Carried.reserve (h : t.Carried s known made) (hid : id ∉ known)
    (hnew : t.target? id = none) : (t.reserve id).Carried s known made := by
  have hext : t.Extends (t.reserve id) := extends_assign hnew
  refine
    { sound := h.sound.reserve
      limit := h.limit
      size := h.size
      renames := h.renames.assign id _ rfl
      waits := ?_
      covers := fun a ha => hext.covers (h.covers a ha)
      kept := h.kept
      image := fun a ha => h.image_extends hext (fun _ _ => rfl) ha
      only := ?_
      upwards := h.upwards_extends hext }
  · intro x hx hsome
    rw [target?_reserve, if_neg (fun heq : x = id => hid (heq ▸ hx))] at hsome
    exact h.waits hx hsome
  · intro new hle hsome
    -- a reserved id puts no atom into the store, so that what is there was made from a record
    obtain ⟨a, ha, hrename⟩ := h.only hle hsome
    exact ⟨a, ha, (hext.rename_eq (h.covers a ha).id).trans hrename⟩

/-- The transfer that has made one more atom. -/
def withAtom (t : Transfer) (record : Atom) (shape : Shape) : Transfer :=
  t.assign record.id ((t.store.place record.kind shape).modify t.store.nextId
    (fun _ => record.truth) fun _ => record.attention) t.dangling

/-- To make a record changes the target of its id alone. -/
theorem target?_withAtom (t : Transfer) (record : Atom) (shape : Shape) (x : Id) :
    (t.withAtom record shape).target? x
      = if x = record.id then some t.store.nextId else t.target? x :=
  target?_assign t record.id _ _ x

/-- While there is room, a record is made under the next id, with its truth and its attention. -/
theorem add_of_hasRoom (h : t.store.hasRoom = true) (record : Atom) (shape : Shape) :
    t.add record shape = .ok (t.withAtom record shape) := by
  rw [add, Store.create_of_hasRoom h]
  rfl

/-- Room for the records to come is room for the next one. -/
theorem Carried.hasRoom (h : t.Carried s known made) {count : Nat}
    (hroom : s.HasRoomFor (made.length + (count + 1))) : t.store.hasRoom = true := by
  rw [Store.hasRoom, h.limit, h.size]
  cases hl : s.limit with
  | none => rfl
  | some limit =>
    have := hroom limit hl
    rw [Option.all_some, decide_eq_true_eq]
    omega

/-- A record is made when all that it references has a new id. -/
theorem Carried.withAtom (h : t.Carried s known made) (hnew : t.target? a.id = none)
    (houtgoing : ∀ id ∈ a.outgoing, (t.target? id).isSome = true) :
    (t.withAtom a (a.shape.rename t.rename)).Carried s known (made ++ [a]) := by
  have hext : t.Extends (t.withAtom a (a.shape.rename t.rename)) := extends_assign hnew
  have hget : ∀ x, (t.withAtom a (a.shape.rename t.rename)).store.get? x
      = if x = t.store.nextId then
          some ⟨t.store.nextId, a.kind, a.shape.rename t.rename, a.truth, a.attention⟩
        else t.store.get? x := t.store.get?_place_modify _ _ _ _
  -- The new atom stands under the next id, which nothing has had before.
  have hold : ∀ x < t.store.nextId,
      (t.withAtom a (a.shape.rename t.rename)).store.get? x = t.store.get? x := fun x hx => by
    rw [hget, if_neg (Nat.ne_of_lt hx)]
  have htarget : (t.withAtom a (a.shape.rename t.rename)).target? a.id = some t.store.nextId :=
    (t.target?_withAtom a _ a.id).trans (if_pos rfl)
  have hcovers : (t.withAtom a (a.shape.rename t.rename)).Covers a :=
    ⟨by rw [htarget]; rfl, fun id hid => hext.isSome (houtgoing id hid)⟩
  refine
    { sound := (h.sound.place a.kind _).modify t.store.nextId (fun _ => a.truth) fun _ => a.attention
      limit := h.limit
      size := ?_
      renames := h.renames.assign a.id _ rfl
      waits := ?_
      covers := ?_
      kept := fun id hid => (hold id (Nat.lt_of_lt_of_le hid h.renames.next)).trans (h.kept id hid)
      image := ?_
      only := ?_
      upwards := ?_ }
  · show ((t.store.place _ _).modify _ _ _).size = _
    rw [Store.size_modify, h.sound.size_place, h.size, List.length_append]
    rfl
  · intro x hx hsome
    by_cases hxa : x = a.id
    · exact ⟨a, by simp, hxa.symm⟩
    · rw [target?_withAtom, if_neg hxa] at hsome
      obtain ⟨b, hb, hbx⟩ := h.waits hx hsome
      exact ⟨b, List.mem_append_left _ hb, hbx⟩
  · intro b hb
    rcases List.mem_append.mp hb with hb | hb
    · exact hext.covers (h.covers b hb)
    · rw [List.mem_singleton.mp hb]
      exact hcovers
  · intro b hb
    rcases List.mem_append.mp hb with hb | hb
    · exact h.image_extends hext hold hb
    · rw [List.mem_singleton.mp hb, rename_of_target? htarget, hget, if_pos rfl, Atom.rename,
        rename_of_target? htarget, Shape.rename_congr fun id hid => hext.rename_eq (houtgoing id hid)]
  · intro new hle hsome
    by_cases hlast : new = t.store.nextId
    · exact ⟨a, by simp, by rw [rename_of_target? htarget, hlast]⟩
    · rw [hget, if_neg hlast] at hsome
      obtain ⟨b, hb, hrename⟩ := h.only hle hsome
      exact ⟨b, List.mem_append_left _ hb, (hext.rename_eq (h.covers b hb).id).trans hrename⟩
  · refine List.pairwise_append.mpr ⟨h.upwards_extends hext, List.pairwise_singleton _ _, ?_⟩
    intro b hb c hc
    have hb := (h.covers b hb).id
    rw [List.mem_singleton.mp hc, rename_of_target? htarget, hext.rename_eq hb]
    exact (h.renames.fresh (target?_of_isSome hb)).2

/-! ## The loops -/

/-- What the loops need of the records to come: ids of their own that are known. -/
structure Awaits (known : Std.TreeSet Id) (made records : List Atom) : Prop where
  known : ∀ a ∈ records, a.id ∈ known
  ids : ((made ++ records).map Atom.id).Nodup

/-- The first half of the awaited records is awaited. -/
theorem Awaits.front {front behind : List Atom} (h : Awaits known made (front ++ behind)) :
    Awaits known made front where
  known a ha := h.known a (List.mem_append_left behind ha)
  ids := by
    have hids := h.ids
    rw [← List.append_assoc, List.map_append] at hids
    exact (List.nodup_append.mp hids).1

/-- The second half is awaited once the first half was made. -/
theorem Awaits.behind {front behind : List Atom} (h : Awaits known made (front ++ behind)) :
    Awaits known (made ++ front) behind where
  known a ha := h.known a (List.mem_append_right front ha)
  ids := by
    rw [List.append_assoc]
    exact h.ids

/-- Behind the first awaited record the others are awaited. -/
theorem Awaits.tail {records : List Atom} (h : Awaits known made (a :: records)) :
    Awaits known (made ++ [a]) records := by
  rw [← List.singleton_append] at h
  exact h.behind

/-- A record to come has no new id. -/
theorem Carried.target?_head (h : t.Carried s known made) {records : List Atom}
    (hawaits : Awaits known made (a :: records)) : t.target? a.id = none := by
  rw [Option.eq_none_iff_forall_ne_some]
  intro new hnew
  obtain ⟨b, hb, hid⟩ := h.waits (hawaits.known a List.mem_cons_self) (by rw [hnew]; rfl)
  have hids := hawaits.ids
  rw [List.map_append, List.nodup_append] at hids
  exact hids.2.2 b.id (List.mem_map_of_mem hb) a.id (by simp) hid

/-- The pass over the nodes makes each of them, as long as there is room. -/
theorem Carried.addNodes {records : List Atom} (h : t.Carried s known made)
    (hroom : s.HasRoomFor (made.length + records.length)) (hawaits : Awaits known made records)
    (hnodes : ∀ a ∈ records, a.isNode = true) :
    ∃ after, t.addNodes records = (.ok (), after) ∧ after.Carried s known (made ++ records) := by
  induction records generalizing t made with
  | nil => exact ⟨t, rfl, by rwa [List.append_nil]⟩
  | cons a records ih =>
    obtain ⟨label, hshape⟩ := Atom.exists_label (hnodes a List.mem_cons_self)
    have houtgoing := Atom.outgoing_of_isNode (hnodes a List.mem_cons_self)
    have hrename : a.shape.rename t.rename = a.shape := by rw [hshape]; rfl
    have hstep := h.withAtom (h.target?_head hawaits) (by simp [houtgoing])
    rw [hrename] at hstep
    obtain ⟨after, hadd, hafter⟩ := ih hstep
      hroom.concat hawaits.tail
      fun b hb => hnodes b (List.mem_cons_of_mem a hb)
    refine ⟨after, ?_, by rwa [List.append_assoc] at hafter⟩
    rw [Transfer.addNodes, add_of_hasRoom (h.hasRoom hroom)]
    exact hadd

/-- References to records that were made have new ids, and the others are given some. -/
theorem Carried.resolveTargets (link : Id) {ids : List Id} (h : t.Carried s known made)
    (hready : ∀ id ∈ ids, id ∈ known → (t.target? id).isSome = true) :
    ∃ after, t.resolveTargets known link ids = (.ok (), after) ∧ after.Carried s known made
      ∧ t.Extends after ∧ ∀ id ∈ ids, (after.target? id).isSome = true := by
  induction ids generalizing t with
  | nil => exact ⟨t, rfl, h, Extends.refl t, by simp⟩
  | cons id ids ih =>
    have hrest := fun x hx => hready x (List.mem_cons_of_mem id hx)
    rw [Transfer.resolveTargets]
    by_cases hmapped : (t.target? id).isSome = true
    · obtain ⟨after, hresolve, hcarried, hext, hsome⟩ := ih h hrest
      rw [if_pos hmapped]
      exact ⟨after, hresolve, hcarried, hext, List.forall_mem_cons.mpr ⟨hext.isSome hmapped, hsome⟩⟩
    · -- The records that are referenced have been made, so this is a reference to nothing.
      have hunknown : id ∉ known := fun hid => hmapped (hready id List.mem_cons_self hid)
      have hnew : t.target? id = none := Option.not_isSome_iff_eq_none.mp hmapped
      have hreserve : t.Extends (t.reserve id) := extends_assign hnew
      have hself : (t.reserve id).target? id = some t.store.nextId :=
        (t.target?_reserve id id).trans (if_pos rfl)
      obtain ⟨after, hresolve, hcarried, hext, hsome⟩ :=
        ih (h.reserve hunknown hnew) fun x hx hxknown => hreserve.isSome (hrest x hx hxknown)
      rw [if_neg hmapped, if_neg hunknown]
      refine ⟨after, hresolve, hcarried, hreserve.trans hext, List.forall_mem_cons.mpr ⟨?_, hsome⟩⟩
      exact hext.isSome (by rw [hself]; rfl)

/-- References that all have new ids are looked up without a loss. -/
theorem filterMap_target? {ids : List Id} (h : ∀ id ∈ ids, (t.target? id).isSome = true) :
    ids.filterMap t.target? = ids.map t.rename := by
  rw [← List.filterMap_eq_map]
  exact List.filterMap_congr fun id hid => target?_of_isSome (h id hid)

/-- A link that is ready references records that have been made, or none. -/
theorem Carried.isSome_of_isReady {among taken : Std.TreeSet Id} (h : t.Carried s known made)
    (hready : isReady among taken a = true)
    (htaken : ∀ id ∈ known, (id ∈ among → id ∈ taken) → ∃ b ∈ made, b.id = id) :
    ∀ id ∈ a.outgoing, id ∈ known → (t.target? id).isSome = true := by
  intro id hid hknown
  obtain ⟨b, hb, rfl⟩ := htaken id hknown (isReady_iff.mp hready id hid)
  exact (h.covers b hb).id

/-- What was made goes along with what was taken. -/
theorem exists_made_append {among taken : Std.TreeSet Id} (front : List Atom)
    (htaken : ∀ id ∈ known, (id ∈ among → id ∈ taken) → ∃ b ∈ made, b.id = id) :
    ∀ id ∈ known, (id ∈ among → id ∈ takeAll taken front) → ∃ b ∈ made ++ front, b.id = id := by
  intro id hknown himp
  by_cases hfront : ∃ b ∈ front, b.id = id
  · obtain ⟨b, hb, hid⟩ := hfront
    exact ⟨b, List.mem_append_right _ hb, hid⟩
  · obtain ⟨b, hb, hid⟩ := htaken id hknown fun hamong =>
      (mem_takeAll.mp (himp hamong)).resolve_right hfront
    exact ⟨b, List.mem_append_left _ hb, hid⟩

/-- The pass over the links makes each of them: the order puts a link behind the records that it
references, and what is no record has an id reserved. -/
theorem Carried.addLinks {among taken : Std.TreeSet Id} {links : List Atom}
    (h : t.Carried s known made) (hroom : s.HasRoomFor (made.length + links.length))
    (hawaits : Awaits known made links) (hlinks : ∀ a ∈ links, a.isLink = true)
    (horder : InOrder among taken links)
    (htaken : ∀ id ∈ known, (id ∈ among → id ∈ taken) → ∃ a ∈ made, a.id = id) :
    ∃ after, t.addLinks known links = (.ok (), after) ∧ after.Carried s known (made ++ links) := by
  induction links generalizing t made taken with
  | nil => exact ⟨t, rfl, by rwa [List.append_nil]⟩
  | cons a links ih =>
    obtain ⟨hfirst, horder⟩ := horder
    -- What the link references among the records stands in front of it and has been made.
    obtain ⟨resolved, hresolve, hcarried, hext, hsome⟩ :=
      h.resolveTargets a.id (h.isSome_of_isReady hfirst htaken)
    have hshape : Shape.link (a.outgoing.filterMap resolved.target?)
        = a.shape.rename resolved.rename := by
      rw [filterMap_target? hsome, Atom.shape_of_isLink (hlinks a List.mem_cons_self)]
      rfl
    obtain ⟨after, hadd, hafter⟩ := ih (hcarried.withAtom (hcarried.target?_head hawaits) hsome)
      hroom.concat hawaits.tail (fun b hb => hlinks b (List.mem_cons_of_mem a hb)) horder
      (exists_made_append [a] htaken)
    refine ⟨after, ?_, by rwa [List.append_assoc] at hafter⟩
    rw [Transfer.addLinks, hresolve]
    simp only [hshape, add_of_hasRoom (hcarried.hasRoom hroom)]
    exact hadd

/-! ## What the loops keep -/

/-- A record is made exactly if there is room, and then under the next id. -/
theorem add_eq_ok {shape : Shape} :
    t.add a shape = .ok after ↔ t.store.hasRoom = true ∧ after = t.withAtom a shape := by
  constructor
  · intro h
    cases hroom : t.store.hasRoom with
    | true =>
      rw [add_of_hasRoom hroom, Except.ok.injEq] at h
      exact ⟨rfl, h.symm⟩
    | false =>
      obtain ⟨limit, hcreate⟩ := Store.create_of_not_hasRoom hroom a.kind shape
      rw [add, hcreate] at h
      cases h
  · rintro ⟨hroom, rfl⟩
    exact add_of_hasRoom hroom a shape

section

variable {P : Transfer → Prop} {records : List Atom}
  (hadd : ∀ t, ∀ a ∈ records, ∀ shape, P t → P (t.withAtom a shape))
  (hreserve : ∀ t id, id ∉ known → t.target? id = none → (∃ a ∈ records, id ∈ a.outgoing) →
    P t → P (t.reserve id))

include hadd in
/-- What each made record preserves, the pass over the nodes preserves, also one that is cut short. -/
theorem addNodes_induction (ht : P t) {nodes : List Atom} (hsub : nodes ⊆ records) :
    P (t.addNodes nodes).2 := by
  induction nodes generalizing t with
  | nil => exact ht
  | cons a nodes ih =>
    obtain ⟨ha, hrest⟩ := List.cons_subset.mp hsub
    rw [addNodes]
    split
    · exact ht
    · next after hafter =>
      rw [(add_eq_ok.mp hafter).2]
      exact ih (hadd t a ha a.shape ht) hrest

include hreserve in
/-- What each reserved id preserves, resolving the references of a link preserves. -/
theorem resolveTargets_induction (ht : P t) (link : Id) {ids : List Id}
    (hids : ∀ id ∈ ids, ∃ a ∈ records, id ∈ a.outgoing) : P (t.resolveTargets known link ids).2 := by
  induction ids generalizing t with
  | nil => exact ht
  | cons id ids ih =>
    obtain ⟨hid, hrest⟩ := List.forall_mem_cons.mp hids
    rw [resolveTargets]
    split
    · exact ih ht hrest
    · next hnew =>
      split
      · exact ht
      · next hunknown =>
        exact ih (hreserve t id hunknown (Option.not_isSome_iff_eq_none.mp hnew) hid ht) hrest

include hadd hreserve in
/-- What made records and reserved ids preserve, the pass over the links preserves, also one that is cut
short. -/
theorem addLinks_induction (ht : P t) {links : List Atom} (hsub : links ⊆ records) :
    P (t.addLinks known links).2 := by
  induction links generalizing t with
  | nil => exact ht
  | cons a links ih =>
    obtain ⟨ha, hrest⟩ := List.cons_subset.mp hsub
    -- a link may fail after some of its references were reserved: the property holds there as well
    have hresolved := resolveTargets_induction hreserve ht a.id fun id hid => ⟨a, ha, hid⟩
    rw [addLinks]
    split
    · next heq =>
      rw [heq] at hresolved
      exact hresolved
    · next resolved heq =>
      rw [heq] at hresolved
      split
      · exact hresolved
      · next after hafter =>
        rw [(add_eq_ok.mp hafter).2]
        exact ih (hadd resolved a ha _ hresolved) hrest

end

end Transfer

/-! ## Documents -/

/-- The ids of the records of a document. -/
def Document.known (d : Document) : Std.TreeSet Id := Std.TreeSet.ofList (d.records.map Atom.id)

/-- The known ids of a document are those of its records. -/
theorem Document.mem_known {d : Document} {id : Id} :
    id ∈ d.known ↔ ∃ a ∈ d.records, a.id = id := by
  rw [known, Std.TreeSet.mem_ofList, List.contains_iff_mem, List.mem_map]

/-- A record is a node or among the links. -/
theorem Document.exists_node_or_mem {d : Document} {id : Id} (h : id ∈ d.known) :
    (∃ a ∈ d.records.filter Atom.isNode, a.id = id)
      ∨ id ∈ Std.TreeSet.ofList ((d.records.filter Atom.isLink).map Atom.id) := by
  obtain ⟨a, ha, rfl⟩ := mem_known.mp h
  cases hnode : a.isNode with
  | true => exact .inl ⟨a, List.mem_filter.mpr ⟨ha, hnode⟩, rfl⟩
  | false =>
    have hlink := Atom.isLink_of_not_isNode hnode
    right
    rw [Std.TreeSet.mem_ofList, List.contains_iff_mem]
    exact List.mem_map_of_mem (List.mem_filter.mpr ⟨ha, hlink⟩)

/-- A record that stands behind no link is a node. -/
theorem Document.exists_node {d : Document} {id : Id} (h : id ∈ d.known)
    (htaken : id ∈ Std.TreeSet.ofList ((d.records.filter Atom.isLink).map Atom.id) →
      id ∈ (∅ : Std.TreeSet Id)) : ∃ a ∈ d.records.filter Atom.isNode, a.id = id :=
  (Document.exists_node_or_mem h).resolve_right fun hmem =>
    absurd (htaken hmem) Std.TreeSet.not_mem_emptyc

/-- The report of a transfer that has made the records of a document. -/
def Transfer.report (t : Transfer) (d : Document) : Report where
  header := d.header
  remap := t.remap.filter fun old _ => d.known.contains old
  nodes := (d.records.filter Atom.isNode).length
  links := (d.records.filter Atom.isLink).length
  dangling := t.dangling

/-- What is reported are the new ids of the records. -/
theorem Transfer.remap_report (t : Transfer) (d : Document) (id : Id) :
    (t.report d).remap[id]? = if d.known.contains id then t.target? id else none := by
  rw [report, Std.TreeMap.getElem?_filter', ← target?]
  cases t.target? id with
  | none => rw [Option.filter_none, ite_self]
  | some new => rw [Option.filter_some]

/-- Nodes and then links in order are all records. -/
theorem perm_of_order {records ordered : List Atom}
    (h : creationOrder (records.filter Atom.isLink) = .ok ordered) :
    (records.filter Atom.isNode ++ ordered).Perm records :=
  ((creationOrder_sound h).1.append_left _).trans (List.filter_append_perm Atom.isNode records)

/-- Putting the links of a document in order changes nothing about the ids that it mentions. -/
theorem mentioned_iff_of_order {records ordered : List Atom}
    (h : creationOrder (records.filter Atom.isLink) = .ok ordered) {id : Id} :
    Mentioned (records.filter Atom.isNode ++ ordered) id ↔ Mentioned records id := by
  simp only [Mentioned, (perm_of_order h).mem_iff]

/-- Nodes and ordered links are together as many as the records. -/
theorem length_of_order {records ordered : List Atom}
    (h : creationOrder (records.filter Atom.isLink) = .ok ordered) :
    (records.filter Atom.isNode).length + ordered.length = records.length := by
  rw [← List.length_append, (perm_of_order h).length_eq]

/-- Records with ids of their own wait to be made: the nodes, and then the links in order. -/
theorem Document.awaits {d : Document} (hids : (d.records.map Atom.id).Nodup) {ordered : List Atom}
    (horder : creationOrder (d.records.filter Atom.isLink) = .ok ordered) :
    Transfer.Awaits d.known [] (d.records.filter Atom.isNode ++ ordered) where
  known a ha := Document.mem_known.mpr ⟨a, (perm_of_order horder).mem_iff.mp ha, rfl⟩
  ids := ((perm_of_order horder).map Atom.id).nodup_iff.mpr hids

/-- The loops over the records of a document come to their ends. The links are in an order. -/
def Document.TransfersTo (d : Document) (s : Store) (ordered : List Atom) (t : Transfer) : Prop :=
  ∃ begun, Transfer.addNodes ⟨s, ∅, 0⟩ (d.records.filter Atom.isNode) = (.ok (), begun) ∧
    begun.addLinks d.known ordered = (.ok (), t)

/-- A transfer that made all records ends with its report and its store. -/
theorem recreate_of_transfersTo {s : Store} {d : Document} {ordered : List Atom} {t : Transfer}
    (horder : creationOrder (d.records.filter Atom.isLink) = .ok ordered)
    (h : d.TransfersTo s ordered t) : recreate s d = (.ok (t.report d), t.store) := by
  obtain ⟨begun, hnodes, hlinks⟩ := h
  rw [recreate, horder]
  simp only
  rw [← Document.known, hnodes]
  simp only [hlinks]
  rfl

/-- What making an atom and reserving an id keep holds at the end of the loops. -/
theorem Document.TransfersTo.induction {P : Transfer → Prop} {s : Store} {d : Document}
    {ordered : List Atom} {t : Transfer}
    (hadd : ∀ t, ∀ a ∈ d.records, ∀ shape, P t → P (t.withAtom a shape))
    (hreserve : ∀ t id, id ∉ d.known → t.target? id = none → (∃ a ∈ d.records, id ∈ a.outgoing) →
      P t → P (t.reserve id))
    (horder : creationOrder (d.records.filter Atom.isLink) = .ok ordered) (hs : P ⟨s, ∅, 0⟩)
    (h : d.TransfersTo s ordered t) : P t := by
  obtain ⟨begun, hnodes, hlinks⟩ := h
  have hordered : ordered ⊆ d.records := fun a ha =>
    (perm_of_order horder).subset (List.mem_append_right _ ha)
  have hnode : d.records.filter Atom.isNode ⊆ d.records := List.filter_sublist.subset
  have hbegun := Transfer.addNodes_induction hadd hs hnode
  rw [hnodes] at hbegun
  have hend := Transfer.addLinks_induction hadd hreserve hbegun hordered
  rwa [hlinks] at hend

/-- The records of a document with ids of their own are carried into a store that has room for them, if
their links have an order. -/
theorem exists_transfersTo {s : Store} (hs : s.Sound) {d : Document}
    (hids : (d.records.map Atom.id).Nodup) (hroom : s.HasRoomFor d.records.length)
    {ordered : List Atom} (horder : creationOrder (d.records.filter Atom.isLink) = .ok ordered) :
    ∃ t : Transfer, d.TransfersTo s ordered t
      ∧ t.Carried s d.known (d.records.filter Atom.isNode ++ ordered) := by
  obtain ⟨hperm, hinorder⟩ := creationOrder_sound horder
  have hawaits := Document.awaits hids horder
  have hlength := length_of_order horder
  obtain ⟨nodes, hadd, hnodes⟩ := (Transfer.Carried.start hs d.known).addNodes
    (hroom.mono (by rw [List.length_nil]; omega)) hawaits.front fun a ha => (List.mem_filter.mp ha).2
  obtain ⟨t, hlinks, ht⟩ := hnodes.addLinks (hroom.mono (by rw [List.nil_append, hlength]))
    hawaits.behind (fun a ha => (List.mem_filter.mp (hperm.mem_iff.mp ha)).2) hinorder
    fun id => Document.exists_node
  exact ⟨t, ⟨nodes, hadd, hlinks⟩, ht⟩

/-- The records of a document with ids of their own are made again if there is room for them and their
links have an order. -/
theorem recreate_of_order {s : Store} (hs : s.Sound) {d : Document}
    (hids : (d.records.map Atom.id).Nodup) (hroom : s.HasRoomFor d.records.length)
    {ordered : List Atom} (horder : creationOrder (d.records.filter Atom.isLink) = .ok ordered) :
    ∃ t : Transfer, recreate s d = (.ok (t.report d), t.store)
      ∧ t.Carried s d.known (d.records.filter Atom.isNode ++ ordered) := by
  obtain ⟨t, htransfers, ht⟩ := exists_transfersTo hs hids hroom horder
  exact ⟨t, recreate_of_transfersTo horder htransfers, ht⟩

end Snapshot

end BeliefGraph
