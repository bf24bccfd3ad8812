import BeliefGraph.Proofs.Snapshot.Grammar

/-!
# Lines of a snapshot read back

The line that is written of an atom is the record of that atom: id, kind, shape, truth and attention.
`Atom.InWords` is what a line has room for.
-/

namespace BeliefGraph

/-- The ids of an atom fit into words, and a word counts its references. -/
structure Atom.InWords (a : Atom) : Prop where
  id : a.id < UInt64.size
  outgoing : ∀ id ∈ a.outgoing, id < UInt64.size
  arity : a.outgoing.length < UInt64.size

namespace Snapshot

/-! ## Joining and cutting -/

/-- Words that are joined by spaces are found again. -/
theorem words_joinFields {fields : List (List Char)} (h : ∀ field ∈ fields, IsWord field) :
    words (joinFields fields) = fields := by
  induction fields with
  | nil => rfl
  | cons field fields ih =>
    have hfield := h field List.mem_cons_self
    have ih := ih fun f hf => h f (List.mem_cons_of_mem field hf)
    cases fields with
    | nil => exact words_word hfield
    | cons next rest =>
      rw [joinFields_cons field (List.cons_ne_nil _ _),
        words_append_blank hfield (by decide), ih]

/-- Fields that are each on one line are so together. -/
theorem oneLine_joinFields {fields : List (List Char)} (h : ∀ field ∈ fields, OneLine field) :
    OneLine (joinFields fields) := by
  induction fields with
  | nil => decide
  | cons field fields ih =>
    have hfield := h field List.mem_cons_self
    have ih := ih fun f hf => h f (List.mem_cons_of_mem field hf)
    cases fields with
    | nil => exact hfield
    | cons next rest =>
      rw [joinFields_cons field (List.cons_ne_nil _ _), oneLine_append, oneLine_cons]
      exact ⟨hfield, by decide, ih⟩

/-- Written out, the first of some lines ends with a newline, and the others follow. -/
theorem unlines_cons (l : List Char) (ls : List (List Char)) :
    unlines (l :: ls) = l ++ '\n' :: unlines ls := by
  simp [unlines]

/-- Lines that are written out are found again. -/
theorem lines_unlines {ls : List (List Char)} (h : ∀ l ∈ ls, OneLine l) : lines (unlines ls) = ls := by
  induction ls with
  | nil => rfl
  | cons l ls ih =>
    rw [unlines_cons, lines_append (h l List.mem_cons_self),
      ih fun m hm => h m (List.mem_cons_of_mem l hm)]

/-! ## Common fields -/

/-- The fields that records share are words. -/
theorem isWord_commonFields {tag : List Char} (htag : IsWord tag) (a : Atom) :
    ∀ field ∈ commonFields tag a, IsWord field := by
  simp only [commonFields, List.mem_cons, List.not_mem_nil, or_false]
  rintro field (rfl | rfl | rfl | rfl | rfl | rfl | rfl | rfl | rfl)
  · exact htag
  · exact isWord_toDigits _
  · exact a.kind.isWord_name
  · exact Single.isWord_chars _
  · exact Single.isWord_chars _
  · exact isWord_toDigits _
  · exact isWord_intField _
  · exact isWord_intField _
  · exact isWord_intField _

/-- The fields that records share are read as those of the atom. -/
theorem sharedFields_commonFields {a : Atom} (ha : a.InWords) (tag : List Char) :
    SharedFields (commonFields tag a).tail a :=
  ⟨_, _, _, _, _, _, _, _, rfl, readWord_natField ha.id, readKind_name _, readSingle_chars _,
    readSingle_chars _, readCount_natField _, readImportance_intField _, readImportance_intField _,
    readImportance_intField _⟩

/-! ## Records -/

/-- The fields of a record line, as they are joined. -/
theorem recordLine_node {a : Atom} {label : Option String} (h : a.shape = .node label) :
    recordLine a = joinFields (commonFields nodeTag a ++ [labelField label]) := by
  rw [recordLine, h]

/-- The record of a link has its arity and its references behind the shared fields. -/
theorem recordLine_link {a : Atom} {outgoing : List Id} (h : a.shape = .link outgoing) :
    recordLine a
      = joinFields (commonFields linkTag a ++ natField outgoing.length :: outgoing.map natField) := by
  rw [recordLine, h]

/-- All fields of the record of a link are words. -/
theorem isWord_linkFields (a : Atom) (outgoing : List Id) :
    ∀ field ∈ commonFields linkTag a ++ natField outgoing.length :: outgoing.map natField,
      IsWord field := by
  intro field hfield
  rcases List.mem_append.mp hfield with hfield | hfield
  · exact isWord_commonFields isWord_linkTag a field hfield
  · rcases List.mem_cons.mp hfield with rfl | hfield
    · exact isWord_toDigits _
    · obtain ⟨id, -, rfl⟩ := List.mem_map.mp hfield
      exact isWord_toDigits id

/-- A record stays on its line. -/
theorem oneLine_recordLine (a : Atom) : OneLine (recordLine a) := by
  cases h : a.shape with
  | node label =>
    rw [recordLine_node h]
    refine oneLine_joinFields fun field hfield => ?_
    rcases List.mem_append.mp hfield with hfield | hfield
    · -- only the label may hold blanks, and it is written as a quoted text
      exact (isWord_commonFields isWord_nodeTag a field hfield).2.oneLine
    · rw [List.mem_singleton.mp hfield]
      exact oneLine_labelField label
  | link outgoing =>
    rw [recordLine_link h]
    exact oneLine_joinFields fun field hfield => (isWord_linkFields a outgoing field hfield).2.oneLine

/-- The references of a link are read one by one. -/
theorem forall₂_natField {ids : List Id} (h : ∀ id ∈ ids, id < UInt64.size) :
    List.Forall₂ (fun token id => readWord token = .ok id) (ids.map natField) ids := by
  rw [List.forall₂_map_left_iff, List.forall₂_same]
  exact fun id hid => readWord_natField (h id hid)

/-- The line that is written of an atom is its record. -/
theorem isRecord_recordLine {a : Atom} (ha : a.InWords) : IsRecord (recordLine a) a := by
  cases h : a.shape with
  | node label =>
    refine .node (recordLine_node h) (fun field hfield => ?_)
      (sharedFields_commonFields ha nodeTag) (readLabel?_labelField label) h
    exact (isWord_commonFields isWord_nodeTag a field (List.mem_of_mem_tail hfield)).no_space
  | link outgoing =>
    have houtgoing : a.outgoing = outgoing := by rw [Atom.outgoing, h]; rfl
    have hfields : ∀ field ∈ (commonFields linkTag a).tail
        ++ natField outgoing.length :: outgoing.map natField, IsWord field :=
      fun field hfield => isWord_linkFields a outgoing field (List.mem_cons_of_mem linkTag hfield)
    -- the count in front of the references is the one that the reader checks
    have harity : readWord (natField outgoing.length) = .ok (outgoing.map natField).length := by
      rw [List.length_map]
      exact readWord_natField (houtgoing ▸ ha.arity)
    refine .link ?_ (words_joinFields hfields) (sharedFields_commonFields ha linkTag) harity
      (forall₂_natField (houtgoing ▸ ha.outgoing)) h
    rw [recordLine_link h]
    exact joinFields_cons linkTag (by simp)

/-- A number that is read as a word fits into one. -/
theorem lt_of_readWord {cs : List Char} {n : Nat} (h : readWord cs = .ok n) : n < UInt64.size := by
  rw [readWord, readNat] at h
  cases hread : Integer.readNat UInt64.size cs with
  | error e =>
    rw [hread] at h
    cases h
  | ok m =>
    rw [hread] at h
    cases h
    exact Integer.lt_of_readNat (by decide) hread

/-- What a record says fits into a line. -/
theorem IsRecord.inWords {line : List Char} {a : Atom} (h : IsRecord line a) : a.InWords := by
  have hid : ∀ {fields}, SharedFields fields a → a.id < UInt64.size := by
    rintro _ ⟨id, kind, strength, confidence, count, sti, lti, vlti, -, hread, -⟩
    exact lt_of_readWord hread
  cases h with
  | node line_eq unspaced shared reads shape =>
    have houtgoing := Atom.outgoing_of_isNode (Atom.isNode_of_shape shape)
    exact ⟨hid shared, by simp [houtgoing], by rw [houtgoing]; decide⟩
  | @link rest fields ids arity outgoing line_eq words_eq shared counted references shape =>
    have houtgoing : a.outgoing = outgoing := by rw [Atom.outgoing, shape]; rfl
    refine ⟨hid shared, ?_, ?_⟩
    · rw [houtgoing]
      intro id hmem
      obtain ⟨token, -, hread⟩ := exists_of_forall₂ references hmem
      exact lt_of_readWord hread
    · rw [houtgoing, ← references.length_eq]
      exact lt_of_readWord counted

/-- Atoms that are read from records have numbers that fit into words. -/
theorem AreRecords.inWords {ls : List (List Char)} {as : List Atom} (h : AreRecords ls as) :
    ∀ a ∈ as, a.InWords := by
  intro a ha
  obtain ⟨line, -, hrecord⟩ := exists_of_forall₂ h.each ha
  exact hrecord.inWords

/-- Records with ids of their own, and no node behind a link, are written as records. -/
theorem areRecords_map {records : List Atom}
    (hsorted : records.Pairwise fun a b => a.isLink = true → b.isLink = true)
    (hids : (records.map Atom.id).Nodup) (hwords : ∀ a ∈ records, a.InWords) :
    AreRecords (records.map recordLine) records where
  each := by
    rw [List.forall₂_map_left_iff, List.forall₂_same]
    exact fun a ha => isRecord_recordLine (hwords a ha)
  sorted := hsorted
  ids := hids

end Snapshot

end BeliefGraph
