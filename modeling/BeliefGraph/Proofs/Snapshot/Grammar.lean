import BeliefGraph.Proofs.Snapshot.Fields

/-!
# Which lines are records

`IsRecord` says what the line of a record looks like: the tag, the fields that all records share, and
then a label or the references. A line is read as an atom exactly if it is the record of that atom and
no node stands behind a link (`readRecord_eq_ok`).

`AreRecords` says which lines are the records of a document. The loop over the lines keeps that the
lines behind it are records, and where it stops the next line `Offends`. Both cases are one induction
(`readRecords_cases`), so the lines that are accepted and the line that is blamed follow together.
-/

namespace BeliefGraph.Snapshot

/-! ## Reading in sequence -/

/-- Two steps succeed when the first one does and the second one does with its value. -/
theorem bind_eq_ok {ε α β : Type} {x : Except ε α} {f : α → Except ε β} {b : β} :
    (x >>= f) = .ok b ↔ ∃ a, x = .ok a ∧ f a = .ok b := by
  cases x with
  | error e =>
    constructor
    · intro h
      cases h
    · rintro ⟨a, ⟨⟩, -⟩
  | ok a =>
    constructor
    · intro h
      exact ⟨a, rfl, h⟩
    · rintro ⟨a, ⟨⟩, h⟩
      exact h

/-- A token is read as what the reader of its field gives. -/
theorem readToken_eq_ok {α : Type} {field : String} {read : List Char → Except (Option String) α}
    {token : List Char} {a : α} : readToken field read token = .ok a ↔ read token = .ok a := by
  rw [readToken]
  cases read token <;> simp

/-- The next field is read off the first token, and the other tokens are left. -/
theorem nextField_eq_ok {α : Type} {field : String} {read : List Char → Except (Option String) α}
    {fields rest : Fields} {a : α} :
    nextField field read fields = .ok (a, rest)
      ↔ ∃ token, fields = token :: rest ∧ read token = .ok a := by
  cases fields with
  | nil => simp [nextField]
  | cons token fields =>
    rw [nextField]
    cases h : readToken field read token with
    | error fault =>
      have hread : ∀ a, read token ≠ .ok a := fun a ha => by
        rw [readToken_eq_ok.mpr ha] at h
        cases h
      simp [Except.map, hread]
    | ok b =>
      rw [readToken_eq_ok] at h
      simp only [Except.map, Except.ok.injEq, Prod.mk.injEq, List.cons.injEq]
      constructor
      · rintro ⟨rfl, rfl⟩
        exact ⟨token, ⟨rfl, rfl⟩, h⟩
      · rintro ⟨_, ⟨rfl, rfl⟩, ha⟩
        rw [h, Except.ok.injEq] at ha
        exact ⟨ha, rfl⟩

/-- A field is read, and then what follows it. -/
theorem nextField_bind_eq_ok {α β : Type} {field : String}
    {read : List Char → Except (Option String) α} {fields : Fields}
    {next : α × Fields → Except Fault β} {b : β} :
    (nextField field read fields >>= next) = .ok b
      ↔ ∃ token a rest, fields = token :: rest ∧ read token = .ok a ∧ next (a, rest) = .ok b := by
  rw [bind_eq_ok]
  constructor
  · rintro ⟨⟨a, rest⟩, h, hnext⟩
    obtain ⟨token, hfields, hread⟩ := nextField_eq_ok.mp h
    exact ⟨token, a, rest, hfields, hread, hnext⟩
  · rintro ⟨token, a, rest, hfields, hread, hnext⟩
    exact ⟨(a, rest), nextField_eq_ok.mpr ⟨token, hfields, hread⟩, hnext⟩

/-- Tokens are read one by one. -/
theorem mapM_readToken_eq_ok {α : Type} {field : String} {read : List Char → Except (Option String) α}
    {tokens : Fields} {as : List α} :
    tokens.mapM (readToken field read) = .ok as
      ↔ List.Forall₂ (fun token a => read token = .ok a) tokens as := by
  induction tokens generalizing as with
  | nil => cases as <;> simp [pure, Except.pure]
  | cons token tokens ih =>
    rw [List.mapM_cons, bind_eq_ok, List.forall₂_cons_left_iff]
    simp only [bind_eq_ok, ih, readToken_eq_ok]
    constructor
    · rintro ⟨a, ha, rest, hrest, ⟨⟩⟩
      exact ⟨a, rest, ha, hrest, rfl⟩
    · rintro ⟨a, rest, ha, hrest, rfl⟩
      exact ⟨a, ha, rest, hrest, rfl⟩

/-- Of two lists that go together one by one, each member of the second goes with one of the first. -/
theorem exists_of_forall₂ {α β : Type} {r : α → β → Prop} {xs : List α} {ys : List β}
    (h : List.Forall₂ r xs ys) {y : β} (hy : y ∈ ys) : ∃ x ∈ xs, r x y := by
  induction h with
  | nil => cases hy
  | @cons x z xs ys hr _ ih =>
    rcases List.mem_cons.mp hy with rfl | hy
    · exact ⟨x, List.mem_cons_self, hr⟩
    · obtain ⟨x', hx', hr'⟩ := ih hy
      exact ⟨x', List.mem_cons_of_mem x hx', hr'⟩

/-! ## Pieces -/

/-- The first piece of a line has no spaces. -/
theorem firstPiece_no_space (cs : List Char) : ∀ c ∈ firstPiece cs, c ≠ ' ' :=
  fun _ hc => bne_iff_ne.mp (List.mem_takeWhile_imp (p := (· != ' ')) hc)

/-- The first space of a text stands behind its first piece. -/
theorem eq_of_afterSpace? {cs rest : List Char} (h : afterSpace? cs = some rest) :
    cs = firstPiece cs ++ ' ' :: rest := by
  have hsplit := List.takeWhile_append_dropWhile (p := (· != ' ')) (l := cs)
  rw [afterSpace?] at h
  split at h
  · cases h
  · next c behind hdrop =>
    cases h
    have hne : cs.dropWhile (· != ' ') ≠ [] := by simp [hdrop]
    have hc := List.head_dropWhile_not (· != ' ') hne
    simp only [hdrop, List.head_cons, bne_eq_false_iff_eq] at hc
    rw [hdrop, hc] at hsplit
    exact hsplit.symm

/-- A line without spaces is one piece. -/
theorem eq_of_afterSpace?_none {cs : List Char} (h : afterSpace? cs = none) : cs = firstPiece cs := by
  have hsplit := List.takeWhile_append_dropWhile (p := (· != ' ')) (l := cs)
  rw [afterSpace?] at h
  split at h
  · next hdrop =>
    rw [hdrop, List.append_nil] at hsplit
    exact hsplit.symm
  · cases h

/-- A line is cut into no more pieces than were asked for. -/
theorem length_pieces_le (count : Nat) (cs : List Char) : (pieces count cs).length ≤ count := by
  induction count, cs using pieces.induct with
  | case1 cs => simp [pieces]
  | case2 cs => simp [pieces]
  | case3 count cs hnone => simp [pieces, hnone]
  | case4 count cs rest hsome ih => simpa [pieces, hsome] using ih

/-- Fields are joined to the first one with a space in between. -/
theorem joinFields_cons (field : List Char) {fields : List (List Char)} (h : fields ≠ []) :
    joinFields (field :: fields) = field ++ ' ' :: joinFields fields := by
  cases fields with
  | nil => exact absurd rfl h
  | cons next rest => rfl

/-- A text is cut into the pieces that it was joined from, where only the last holds spaces. -/
theorem pieces_eq_append_iff {tokens : List (List Char)} {last line : List Char} :
    pieces (tokens.length + 1) line = tokens ++ [last]
      ↔ line = joinFields (tokens ++ [last]) ∧ ∀ token ∈ tokens, ∀ c ∈ token, c ≠ ' ' := by
  induction tokens generalizing line with
  | nil => simp [pieces, joinFields]
  | cons token tokens ih =>
    rw [List.cons_append, joinFields_cons token (by simp), List.forall_mem_cons]
    constructor
    · intro h
      rw [List.length_cons, pieces] at h
      split at h
      · simp at h
      · next rest hsome =>
        obtain ⟨htoken, hrest⟩ := List.cons.inj h
        obtain ⟨hline, htokens⟩ := ih.mp hrest
        rw [← htoken, ← hline]
        exact ⟨eq_of_afterSpace? hsome, firstPiece_no_space line, htokens⟩
    · rintro ⟨rfl, htoken, htokens⟩
      rw [List.length_cons, pieces_append htoken, ih.mpr ⟨rfl, htokens⟩]

/-! ## Record lines -/

/-- The texts of the fields that all records share, in their order. -/
def SharedFields (fields : Fields) (a : Atom) : Prop :=
  ∃ id kind strength confidence count sti lti vlti,
    fields = [id, kind, strength, confidence, count, sti, lti, vlti] ∧
      readWord id = .ok a.id ∧ readKind kind = .ok a.kind ∧
      readSingle strength = .ok a.truth.strength ∧ readSingle confidence = .ok a.truth.confidence ∧
      readCount count = .ok a.truth.count ∧ readImportance sti = .ok a.attention.sti ∧
      readImportance lti = .ok a.attention.lti ∧ readImportance vlti = .ok a.attention.vlti

/-- There are eight shared fields. -/
theorem SharedFields.length {fields : Fields} {a : Atom} (h : SharedFields fields a) :
    fields.length = 8 := by
  obtain ⟨id, kind, strength, confidence, count, sti, lti, vlti, rfl, -⟩ := h
  rfl

/-- A line is the record of an atom. -/
inductive IsRecord (line : List Char) (a : Atom) : Prop
  /-- A node has ten fields between single spaces, of which only the last may hold spaces. -/
  | node {fields : Fields} {text : List Char} {label : Option String}
      (line_eq : line = joinFields (nodeTag :: fields ++ [text]))
      (unspaced : ∀ field ∈ fields, ∀ c ∈ field, c ≠ ' ')
      (shared : SharedFields fields a)
      (reads : readLabel? text = some label)
      (shape : a.shape = .node label)
  /-- A link has fields between blanks, and as many references as its arity says. -/
  | link {rest : List Char} {fields ids : Fields} {arity : List Char} {outgoing : List Id}
      (line_eq : line = linkTag ++ ' ' :: rest)
      (words_eq : words rest = fields ++ arity :: ids)
      (shared : SharedFields fields a)
      (counted : readWord arity = .ok ids.length)
      (references : List.Forall₂ (fun token id => readWord token = .ok id) ids outgoing)
      (shape : a.shape = .link outgoing)

/-- The fields that all records share are read in their order. -/
theorem readCommon_eq_ok {shape : Shape} {fields rest : Fields} {a : Atom} :
    readCommon shape fields = .ok (a, rest)
      ↔ a.shape = shape ∧ ∃ shared, SharedFields shared a ∧ fields = shared ++ rest := by
  simp only [readCommon, nextField_bind_eq_ok]
  constructor
  · rintro ⟨id, _, _, rfl, hid, kind, _, _, rfl, hkind, strength, _, _, rfl, hstrength,
      confidence, _, _, rfl, hconfidence, count, _, _, rfl, hcount, sti, _, _, rfl, hsti,
      lti, _, _, rfl, hlti, vlti, _, _, rfl, hvlti, ⟨⟩⟩
    exact ⟨rfl, _, ⟨id, kind, strength, confidence, count, sti, lti, vlti, rfl, hid, hkind, hstrength,
      hconfidence, hcount, hsti, hlti, hvlti⟩, rfl⟩
  · rintro ⟨rfl, _, ⟨id, kind, strength, confidence, count, sti, lti, vlti, rfl, hid, hkind, hstrength,
      hconfidence, hcount, hsti, hlti, hvlti⟩, rfl⟩
    exact ⟨id, _, _, rfl, hid, kind, _, _, rfl, hkind, strength, _, _, rfl, hstrength,
      confidence, _, _, rfl, hconfidence, count, _, _, rfl, hcount, sti, _, _, rfl, hsti,
      lti, _, _, rfl, hlti, vlti, _, _, rfl, hvlti, rfl⟩

/-- The tag of nodes is a word. -/
theorem isWord_nodeTag : IsWord nodeTag := by decide

/-- The tag of links is a word. -/
theorem isWord_linkTag : IsWord linkTag := by decide

/-- A record starts with the tag for what it records. -/
theorem IsRecord.firstPiece_eq {line : List Char} {a : Atom} (h : IsRecord line a) :
    firstPiece line = if a.isNode then nodeTag else linkTag := by
  cases h with
  | node line_eq unspaced shared reads shape =>
    rw [line_eq, List.cons_append, joinFields_cons nodeTag (by simp),
      firstPiece_append isWord_nodeTag.no_space, if_pos (Atom.isNode_of_shape shape)]
  | link line_eq words_eq shared counted references shape =>
    have hlink := Atom.isLink_of_shape shape
    rw [line_eq, firstPiece_append isWord_linkTag.no_space,
      if_neg fun hnode => Atom.not_isLink_of_isNode hnode hlink]

/-- A record of a node is one that starts with the tag of nodes. -/
theorem IsRecord.isNode_iff {line : List Char} {a : Atom} (h : IsRecord line a) :
    a.isNode = true ↔ firstPiece line = nodeTag := by
  have htags : linkTag ≠ nodeTag := by decide
  rw [h.firstPiece_eq]
  cases a.isNode <;> simp [htags]

/-- A record of a link is one that starts with the tag of links. -/
theorem IsRecord.isLink_iff {line : List Char} {a : Atom} (h : IsRecord line a) :
    a.isLink = true ↔ firstPiece line = linkTag := by
  have htags : nodeTag ≠ linkTag := by decide
  rw [h.firstPiece_eq, Atom.isLink]
  cases a.isNode <;> simp [htags]

/-- The pieces behind the tag of a node. -/
theorem tail_pieces_eq_iff {line text : List Char} {fields rest : Fields}
    (hlength : fields.length = 8) (htag : firstPiece line = nodeTag) :
    (pieces 10 line).tail = fields ++ text :: rest
      ↔ rest = [] ∧ line = joinFields (nodeTag :: fields ++ [text]) ∧
        ∀ field ∈ fields, ∀ c ∈ field, c ≠ ' ' := by
  have hcount : 10 = (nodeTag :: fields).length + 1 := by simp [hlength]
  constructor
  · intro h
    have hle := length_pieces_le 10 line
    obtain ⟨tag, hpieces⟩ : ∃ tag, pieces 10 line = tag :: (fields ++ text :: rest) := by
      cases hp : pieces 10 line with
      | nil => simp [hp] at h
      | cons tag tail =>
        rw [hp] at h
        exact ⟨tag, congrArg (tag :: ·) h⟩
    have hrest : rest = [] := by
      rw [hpieces, List.length_cons, List.length_append, List.length_cons, hlength] at hle
      exact List.length_eq_zero_iff.mp (by omega)
    subst hrest
    have hcut : pieces ((tag :: fields).length + 1) line = (tag :: fields) ++ [text] := by
      rw [List.length_cons, hlength]
      exact hpieces
    obtain ⟨hline, hunspaced⟩ := pieces_eq_append_iff.mp hcut
    obtain ⟨htagUnspaced, hunspaced⟩ := List.forall_mem_cons.mp hunspaced
    -- The first piece is the tag.
    have hfirst : firstPiece line = tag := by
      rw [hline, List.cons_append, joinFields_cons tag (by simp), firstPiece_append htagUnspaced]
    rw [← htag, hfirst]
    exact ⟨rfl, hline, hunspaced⟩
  · rintro ⟨rfl, hline, hunspaced⟩
    have hcut := pieces_eq_append_iff.mpr
      ⟨hline, List.forall_mem_cons.mpr ⟨isWord_nodeTag.no_space, hunspaced⟩⟩
    rw [hcount, hcut]
    rfl

/-- A line with the tag of nodes is read as a node exactly if it is the record of that node. -/
theorem readNode_eq_ok {line : List Char} {a : Atom} (htag : firstPiece line = nodeTag) :
    readNode line = .ok a ↔ IsRecord line a := by
  rw [readNode, bind_eq_ok]
  constructor
  · rintro ⟨⟨b, rest⟩, hcommon, h⟩
    obtain ⟨-, fields, hshared, hfields⟩ := readCommon_eq_ok.mp hcommon
    cases rest with
    | nil => cases h
    | cons text rest =>
      obtain ⟨-, hline, hunspaced⟩ := (tail_pieces_eq_iff hshared.length htag).mp hfields
      cases hlabel : readLabel? text with
      | none => simp [hlabel, throw, throwThe, MonadExceptOf.throw] at h
      | some label =>
        simp only [hlabel] at h
        cases h
        exact .node hline hunspaced hshared hlabel rfl
  · intro h
    cases h with
    | link line_eq words_eq shared counted references shape =>
      -- The record of a link starts with the other tag.
      rw [line_eq, firstPiece_append isWord_linkTag.no_space] at htag
      exact absurd htag (by decide)
    | @node fields text label line_eq unspaced shared reads shape =>
      have hfields := (tail_pieces_eq_iff shared.length htag).mpr ⟨rfl, line_eq, unspaced⟩
      refine ⟨({ a with shape := .node none }, [text]),
        readCommon_eq_ok.mpr ⟨rfl, fields, shared, hfields⟩, ?_⟩
      -- The label is the only field that may hold spaces, and it is the last piece.
      simp only [reads, ← shape]
      rfl

/-- A line that starts with a piece is that piece, or goes on behind it with a space. -/
theorem eq_of_firstPiece {line tag : List Char} (h : firstPiece line = tag) :
    line = tag ∨ ∃ rest, line = tag ++ ' ' :: rest := by
  cases hsome : afterSpace? line with
  | none => exact .inl ((eq_of_afterSpace?_none hsome).trans h)
  | some rest => exact .inr ⟨rest, h ▸ eq_of_afterSpace? hsome⟩

/-- The words behind the tag of a link. -/
theorem tail_words_eq_iff {line arity : List Char} {fields ids : Fields} (htag : firstPiece line = linkTag) :
    (words line).tail = fields ++ arity :: ids
      ↔ ∃ rest, line = linkTag ++ ' ' :: rest ∧ words rest = fields ++ arity :: ids := by
  have hblank : isBlank ' ' = true := by decide
  constructor
  · intro h
    rcases eq_of_firstPiece htag with rfl | ⟨rest, rfl⟩
    · rw [words_word isWord_linkTag] at h
      simp at h
    · rw [words_append_blank isWord_linkTag hblank] at h
      exact ⟨rest, rfl, h⟩
  · rintro ⟨rest, rfl, hwords⟩
    rw [words_append_blank isWord_linkTag hblank]
    exact hwords

/-- A line with the tag of links is read as a link exactly if it is the record of that link. -/
theorem readLink_eq_ok {line : List Char} {a : Atom} (htag : firstPiece line = linkTag) :
    readLink line = .ok a ↔ IsRecord line a := by
  rw [readLink, bind_eq_ok]
  constructor
  · rintro ⟨⟨b, rest⟩, hcommon, h⟩
    obtain ⟨-, fields, hshared, hfields⟩ := readCommon_eq_ok.mp hcommon
    obtain ⟨arity, count, ids, rfl, hcount, h⟩ := nextField_bind_eq_ok.mp h
    obtain ⟨outgoing, houtgoing, h⟩ := bind_eq_ok.mp h
    obtain ⟨rest, hline, hwords⟩ := (tail_words_eq_iff htag).mp hfields
    have hreferences := mapM_readToken_eq_ok.mp houtgoing
    split at h
    · next hlength =>
      cases h
      -- The arity is checked against the references that were read, one for each id.
      rw [← hlength, ← hreferences.length_eq] at hcount
      exact .link hline hwords hshared hcount hreferences rfl
    · cases h
  · intro h
    cases h with
    | node line_eq unspaced shared reads shape =>
      rw [line_eq, List.cons_append, joinFields_cons nodeTag (by simp),
        firstPiece_append isWord_nodeTag.no_space] at htag
      exact absurd htag (by decide)
    | @link rest fields ids arity outgoing line_eq words_eq shared counted references shape =>
      have hfields := (tail_words_eq_iff htag).mpr ⟨rest, line_eq, words_eq⟩
      refine ⟨({ a with shape := .link [] }, arity :: ids),
        readCommon_eq_ok.mpr ⟨rfl, fields, shared, hfields⟩, ?_⟩
      refine nextField_bind_eq_ok.mpr ⟨arity, _, ids, rfl, counted, ?_⟩
      refine bind_eq_ok.mpr ⟨outgoing, mapM_readToken_eq_ok.mpr references, ?_⟩
      dsimp only
      rw [if_pos references.length_eq.symm, ← shape]
      rfl

/-- Reads a line by its tag. -/
def readRecord (linksBegan : Bool) (line : List Char) : Except Fault Atom :=
  if firstPiece line == nodeTag then if linksBegan then .error .nodeAfterLink else readNode line
  else if firstPiece line == linkTag then readLink line
  else .error .unknownRecord

/-- A record is read in front of the rest, if it does not repeat an id. -/
theorem readRecords_cons (number : Nat) (began : Bool) (seen : Std.TreeSet Id) (line : List Char)
    (rest : List (List Char)) :
    readRecords number began seen (line :: rest) =
      match readRecord began line with
      | .error fault => .error (.malformed number fault)
      | .ok a =>
        if a.id ∈ seen then .error (.malformed number (.duplicateId a.id))
        else (readRecords (number + 1) (began || firstPiece line == linkTag) (seen.insert a.id)
          rest).map (a :: ·) := rfl

/-- A line reads as the atom whose record it is, if no link stands in front of a node. -/
theorem readRecord_eq_ok {began : Bool} {line : List Char} {a : Atom} :
    readRecord began line = .ok a ↔ IsRecord line a ∧ (began = true → a.isLink = true) := by
  rw [readRecord]
  split
  · next hnode =>
    have htag := eq_of_beq hnode
    have hnotLink : firstPiece line ≠ linkTag := htag ▸ by decide
    cases began with
    | true =>
      rw [if_pos rfl]
      constructor
      · rintro ⟨⟩
      · rintro ⟨hrecord, hlink⟩
        exact absurd (hrecord.isLink_iff.mp (hlink rfl)) hnotLink
    | false =>
      rw [if_neg Bool.false_ne_true, readNode_eq_ok htag, and_iff_left]
      rintro ⟨⟩
  · next hnode =>
    split
    · next hlink =>
      have htag := eq_of_beq hlink
      rw [readLink_eq_ok htag, iff_self_and]
      exact fun hrecord _ => hrecord.isLink_iff.mpr htag
    · next hlink =>
      constructor
      · rintro ⟨⟩
      · rintro ⟨hrecord, -⟩
        cases hkind : a.isNode with
        | true => exact absurd (beq_iff_eq.mpr (hrecord.isNode_iff.mp hkind)) hnode
        | false =>
          -- A record starts with one of the two tags, so a line with neither of them is none.
          have hisLink := Atom.isLink_of_not_isNode hkind
          exact absurd (beq_iff_eq.mpr (hrecord.isLink_iff.mp hisLink)) hlink

/-- A line is the record of one atom. -/
theorem IsRecord.unique {line : List Char} {a b : Atom} (ha : IsRecord line a) (hb : IsRecord line b) :
    a = b := by
  have ha := readRecord_eq_ok.mpr ⟨ha, fun h => absurd h Bool.false_ne_true⟩
  have hb := readRecord_eq_ok.mpr ⟨hb, fun h => absurd h Bool.false_ne_true⟩
  rw [ha] at hb
  exact Except.ok.inj hb

/-! ## The records of a document -/

/-- Lines are the records of some atoms, one by one: nodes in front of links, each with an id of its own. -/
structure AreRecords (ls : List (List Char)) (as : List Atom) : Prop where
  each : List.Forall₂ IsRecord ls as
  /-- No node stands behind a link. -/
  sorted : as.Pairwise fun a b => a.isLink = true → b.isLink = true
  ids : (as.map Atom.id).Nodup

variable {ls : List (List Char)} {line : List Char} {as : List Atom} {a : Atom}

/-- No lines are the records of no atoms. -/
theorem AreRecords.nil : AreRecords [] [] := ⟨.nil, .nil, .nil⟩

/-- A record may stand behind some others. -/
structure MayFollow (as : List Atom) (a : Atom) : Prop where
  sorted : ∀ b ∈ as, b.isLink = true → a.isLink = true
  id : ∀ b ∈ as, b.id ≠ a.id

/-- A record that may follow others is put behind them. -/
theorem AreRecords.concat (h : AreRecords ls as) (hrecord : IsRecord line a) (hfollow : MayFollow as a) :
    AreRecords (ls ++ [line]) (as ++ [a]) where
  each := List.rel_append h.each (.cons hrecord .nil)
  sorted := List.pairwise_append.mpr ⟨h.sorted, List.pairwise_singleton _ _, fun b hb c hc => by
    rw [List.mem_singleton.mp hc]
    exact hfollow.sorted b hb⟩
  ids := by
    rw [List.map_append, List.map_singleton, List.nodup_append]
    refine ⟨h.ids, List.nodup_singleton _, fun x hx y hy => ?_⟩
    obtain ⟨b, hb, rfl⟩ := List.mem_map.mp hx
    rw [List.mem_singleton.mp hy]
    exact hfollow.id b hb

/-- Lines are the records of one list of atoms. -/
theorem AreRecords.unique {bs : List Atom} (h : AreRecords ls as) (h' : AreRecords ls bs) : as = bs := by
  have hunique : Relator.RightUnique IsRecord := fun _ _ _ ha hb => ha.unique hb
  exact List.right_unique_forall₂' hunique h.each h'.each

/-- Wherever records are cut, the next one may follow those in front of the cut. -/
theorem AreRecords.split {front behind : List (List Char)} {bs : List Atom}
    (h : AreRecords (front ++ line :: behind) bs) :
    ∃ as a, AreRecords front as ∧ IsRecord line a ∧ MayFollow as a := by
  obtain ⟨as, rest, rfl, hfront, hbehind⟩ : ∃ as rest, bs = as ++ rest ∧
      List.Forall₂ IsRecord front as ∧ List.Forall₂ IsRecord (line :: behind) rest :=
    ⟨bs.take front.length, bs.drop front.length, (List.take_append_drop _ _).symm,
      (List.forall₂_take_append _ _ _ h.each.flip).flip, (List.forall₂_drop_append _ _ _ h.each.flip).flip⟩
  cases hbehind with
  | @cons _ a _ rest hrecord _ =>
    have hids := h.ids
    rw [List.map_append, List.nodup_append] at hids
    obtain ⟨hsorted, -, hacross⟩ := List.pairwise_append.mp h.sorted
    refine ⟨as, a, ⟨hfront, hsorted, hids.1⟩, hrecord, ?_, ?_⟩
    · exact fun b hb => hacross b hb a List.mem_cons_self
    · exact fun b hb => hids.2.2 b.id (List.mem_map_of_mem hb) a.id (by simp)

/-! ## The loop over the lines -/

/-- What is wrong with a line behind some records. -/
inductive Offends (as : List Atom) (line : List Char) : Fault → Prop
  | nodeAfterLink (tag : firstPiece line = nodeTag) (began : ∃ a ∈ as, a.isLink = true) :
      Offends as line .nodeAfterLink
  | node {fault : Fault} (tag : firstPiece line = nodeTag) (fresh : ∀ a ∈ as, ¬ a.isLink = true)
      (reads : readNode line = .error fault) : Offends as line fault
  | link {fault : Fault} (tag : firstPiece line = linkTag) (reads : readLink line = .error fault) :
      Offends as line fault
  | unknownRecord (notNode : firstPiece line ≠ nodeTag) (notLink : firstPiece line ≠ linkTag) :
      Offends as line .unknownRecord
  | duplicateId {a : Atom} (record : IsRecord line a) (taken : ∃ b ∈ as, b.id = a.id) :
      Offends as line (.duplicateId a.id)

/-- Where a line offends, no lines up to it are records. -/
theorem Offends.not_areRecords {front behind : List (List Char)} {fault : Fault}
    (h : Offends as line fault) (hfront : AreRecords front as) :
    ¬ ∃ bs, AreRecords (front ++ line :: behind) bs := by
  rintro ⟨bs, hbs⟩
  obtain ⟨as', a, hfront', hrecord, hfollow⟩ := hbs.split
  -- The records in front of the line are determined, so the line offends behind these.
  obtain rfl := hfront.unique hfront'
  cases h with
  | nodeAfterLink tag began =>
    obtain ⟨b, hb, hlink⟩ := began
    have hnode := hrecord.isNode_iff.mpr tag
    exact Atom.not_isLink_of_isNode hnode (hfollow.sorted b hb hlink)
  | node tag fresh reads =>
    rw [(readNode_eq_ok tag).mpr hrecord] at reads
    cases reads
  | link tag reads =>
    rw [(readLink_eq_ok tag).mpr hrecord] at reads
    cases reads
  | unknownRecord notNode notLink =>
    cases hkind : a.isNode with
    | true => exact notNode (hrecord.isNode_iff.mp hkind)
    | false => exact notLink (hrecord.isLink_iff.mp (Atom.isLink_of_not_isNode hkind))
  | duplicateId record taken =>
    obtain ⟨b, hb, hid⟩ := taken
    rw [record.unique hrecord] at hid
    exact hfollow.id b hb hid

/-- What the loop remembers of the records behind it. -/
structure Remembers (as : List Atom) (began : Bool) (seen : Std.TreeSet Id) : Prop where
  began_iff : began = true ↔ ∃ a ∈ as, a.isLink = true
  mem_iff : ∀ id, id ∈ seen ↔ ∃ a ∈ as, a.id = id

/-- At the first line there is nothing to remember. -/
theorem Remembers.start : Remembers [] false ∅ := ⟨by simp, by simp⟩

/-- Behind one more record the loop also remembers that record. -/
theorem Remembers.concat {began : Bool} {seen : Std.TreeSet Id} (h : Remembers as began seen)
    (hrecord : IsRecord line a) :
    Remembers (as ++ [a]) (began || firstPiece line == linkTag) (seen.insert a.id) where
  began_iff := by
    rw [Bool.or_eq_true, h.began_iff, beq_iff_eq, ← hrecord.isLink_iff]
    simp [or_and_right, exists_or]
  mem_iff id := by
    rw [Std.TreeSet.mem_insert, Std.LawfulEqCmp.compare_eq_iff_eq, h.mem_iff]
    simp [or_and_right, exists_or, or_comm]

/-- A line at which the loop stops offends. -/
theorem Remembers.offends {began : Bool} {seen : Std.TreeSet Id} (h : Remembers as began seen)
    {fault : Fault} (hread : readRecord began line = .error fault) : Offends as line fault := by
  rw [readRecord] at hread
  split at hread
  · next hnode =>
    have htag := eq_of_beq hnode
    split at hread
    · next hbegan =>
      cases hread
      exact .nodeAfterLink htag (h.began_iff.mp hbegan)
    · next hbegan =>
      exact .node htag (fun a ha hlink => hbegan (h.began_iff.mpr ⟨a, ha, hlink⟩)) hread
  · next hnode =>
    split at hread
    · next hlink => exact .link (eq_of_beq hlink) hread
    · next hlink =>
      cases hread
      exact .unknownRecord (fun tag => hnode (beq_iff_eq.mpr tag)) fun tag =>
        hlink (beq_iff_eq.mpr tag)

/-- A record that the loop goes on from may follow those behind it. -/
theorem Remembers.mayFollow {began : Bool} {seen : Std.TreeSet Id} (h : Remembers as began seen)
    (hlink : began = true → a.isLink = true) (hid : a.id ∉ seen) : MayFollow as a where
  sorted b hb hblink := hlink (h.began_iff.mpr ⟨b, hb, hblink⟩)
  id b hb heq := hid ((h.mem_iff a.id).mpr ⟨b, hb, heq⟩)

/-- The loop goes on from the records behind it: it reads the records of all lines, or it stops at a line
that offends. -/
theorem readRecords_cases (number : Nat) {began : Bool} {seen : Std.TreeSet Id}
    {behind : List (List Char)} (hbehind : AreRecords behind as) (h : Remembers as began seen)
    (ls : List (List Char)) :
    (∃ bs, readRecords number began seen ls = .ok bs ∧ AreRecords (behind ++ ls) (as ++ bs)) ∨
      ∃ front line rest bs fault, ls = front ++ line :: rest ∧
        AreRecords (behind ++ front) (as ++ bs) ∧ Offends (as ++ bs) line fault ∧
        readRecords number began seen ls = .error (.malformed (number + front.length) fault) := by
  -- The induction is on the lines that are left; what the loop remembers speaks for the records behind
  -- it.
  induction ls generalizing number began seen behind as with
  | nil => exact .inl ⟨[], rfl, by rwa [List.append_nil, List.append_nil]⟩
  | cons line ls ih =>
    rw [readRecords_cons]
    cases hread : readRecord began line with
    | error fault =>
      refine .inr ⟨[], line, ls, [], fault, rfl, ?_, ?_, rfl⟩
      · rwa [List.append_nil, List.append_nil]
      · rw [List.append_nil]
        exact h.offends hread
    | ok a =>
      obtain ⟨hrecord, hlink⟩ := readRecord_eq_ok.mp hread
      by_cases hseen : a.id ∈ seen
      · refine .inr ⟨[], line, ls, [], .duplicateId a.id, rfl, ?_, ?_, if_pos hseen⟩
        · rwa [List.append_nil, List.append_nil]
        · rw [List.append_nil]
          exact .duplicateId hrecord ((h.mem_iff a.id).mp hseen)
      · have hnext := hbehind.concat hrecord (h.mayFollow hlink hseen)
        simp only [if_neg hseen]
        rcases ih (number + 1) hnext (h.concat hrecord) with
          ⟨bs, hbs, hrecords⟩ | ⟨front, bad, rest, bs, fault, rfl, hrecords, hoffends, herror⟩
        · rw [hbs]
          rw [List.append_assoc, List.append_assoc] at hrecords
          exact .inl ⟨a :: bs, rfl, hrecords⟩
        · rw [herror]
          rw [List.append_assoc, List.append_assoc] at hrecords
          rw [List.append_assoc] at hoffends
          refine .inr ⟨line :: front, bad, rest, a :: bs, fault, rfl, hrecords, hoffends, ?_⟩
          rw [List.length_cons, Nat.add_right_comm, Nat.add_assoc]
          rfl

/-- All lines are read exactly if they are records. -/
theorem readRecords_eq_ok {number : Nat} : readRecords number false ∅ ls = .ok as ↔ AreRecords ls as := by
  rcases readRecords_cases number .nil .start ls with
    ⟨bs, hread, hrecords⟩ | ⟨front, line, rest, bs, fault, rfl, hrecords, hoffends, hread⟩
  · rw [hread, Except.ok.injEq]
    rw [List.nil_append, List.nil_append] at hrecords
    exact ⟨fun heq => heq ▸ hrecords, hrecords.unique⟩
  · rw [hread]
    rw [List.nil_append, List.nil_append] at hrecords
    rw [List.nil_append] at hoffends
    constructor
    · rintro ⟨⟩
    · exact fun h => absurd ⟨as, h⟩ (hoffends.not_areRecords hrecords)

/-- Otherwise the first line is blamed up to which they are not. -/
theorem exists_offends (number : Nat) (h : ¬ ∃ as, AreRecords ls as) :
    ∃ front line rest as fault, ls = front ++ line :: rest ∧ AreRecords front as ∧
      Offends as line fault ∧
      readRecords number false ∅ ls = .error (.malformed (number + front.length) fault) := by
  rcases readRecords_cases number .nil .start ls with
    ⟨bs, -, hrecords⟩ | ⟨front, line, rest, bs, fault, hls, hrecords, hoffends, hread⟩
  · exact absurd ⟨bs, hrecords⟩ h
  · exact ⟨front, line, rest, bs, fault, hls, hrecords, hoffends, hread⟩

end BeliefGraph.Snapshot
