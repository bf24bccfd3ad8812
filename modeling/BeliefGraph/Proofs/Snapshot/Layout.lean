import BeliefGraph.Proofs.Snapshot.Refusal

/-!
# How a snapshot is laid out

A label can be any text, also one that looks like a record or like a trailer. It is written quoted, so it
holds no line end, and it stands last on its line, so blanks in it split nothing. Whatever the labels
are, the text has one line for each atom between its header and its trailer, and each of them reads back
as its atom (`LaidOut`).

The reader looks for the trailer from the end of the text. No other line starts with the tag of trailers,
since the header and the records start with tags of their own. So the newline in front of the trailer is
the only one with that tag behind it (`front_eq_of_mark`), and a label cannot hide the trailer or move it.
-/

namespace BeliefGraph.Snapshot

/-! ## Lines and marks -/

/-- Lines that are written out are what the text is cut into, with nothing behind the last newline. -/
theorem splitOn_unlines {ls : List (List Char)} (h : ∀ l ∈ ls, OneLine l) :
    (unlines ls).splitOn '\n' = ls ++ [[]] := by
  induction ls with
  | nil => rfl
  | cons l ls ih =>
    obtain ⟨hl, hls⟩ := List.forall_mem_cons.mp h
    rw [unlines_cons, List.splitOn_append_cons_self_of_not_mem fun hmem => hl.no_newline _ hmem rfl,
      ih hls]
    rfl

/-- A text is made up of its lines. -/
theorem eq_of_splitOn_eq {cs ds : List Char} {c : Char} (h : cs.splitOn c = ds.splitOn c) : cs = ds :=
  calc cs = [c].intercalate (cs.splitOn c) := (List.intercalate_splitOn c).symm
    _ = [c].intercalate (ds.splitOn c) := by rw [h]
    _ = ds := List.intercalate_splitOn c

/-- What a text starts with on one line, its first line starts with. -/
theorem exists_splitOn_append {mark : List Char} (h : OneLine mark) (behind : List Char) :
    ∃ rest more, (mark ++ behind).splitOn '\n' = (mark ++ rest) :: more := by
  induction mark with
  | nil => exact List.exists_cons_of_ne_nil (List.splitOn_ne_nil '\n' behind)
  | cons c mark ih =>
    obtain ⟨⟨hc, -⟩, hmark⟩ := oneLine_cons.mp h
    obtain ⟨rest, more, heq⟩ := ih hmark
    refine ⟨rest, more, ?_⟩
    rw [List.cons_append, List.splitOn_cons_eq_if_modifyHead, heq, if_neg (mt eq_of_beq hc)]
    rfl

/-- Where only the last line can start with a mark, no other newline has the mark behind it. -/
theorem front_eq_of_mark {ls : List (List Char)} {last mark front behind : List Char}
    (hls : ∀ l ∈ ls, OneLine l) (hlast : OneLine last) (hmark : OneLine mark) (hne : mark ≠ [])
    (hother : ∀ l ∈ ls, ¬ mark <+: l)
    (htext : unlines (ls ++ [last]) = front ++ '\n' :: (mark ++ behind)) :
    front ++ ['\n'] = unlines ls := by
  obtain ⟨rest, more, hstart⟩ := exists_splitOn_append hmark behind
  have hsplit : front.splitOn '\n' ++ (mark ++ rest) :: more = ls ++ [last, []] := by
    rw [← hstart, ← List.splitOn_append_cons_self, ← htext, splitOn_unlines, List.append_assoc]
    · rfl
    · exact List.forall_mem_append.mpr ⟨hls, List.forall_mem_singleton.mpr hlast⟩
  -- The line that starts with the mark is none of the others, nor what follows the last newline.
  have hfront : front.splitOn '\n' = ls := by
    rcases List.append_eq_append_iff.mp hsplit with ⟨between, heq, hrest⟩ | ⟨between, heq, hrest⟩
    · cases between with
      | nil => rw [heq, List.append_nil]
      | cons l between =>
        cases hrest
        exact absurd (List.prefix_append mark rest) (hother _ (by rw [heq]; simp))
    · cases between with
      | nil => rw [heq, List.append_nil]
      | cons l between =>
        simp [List.singleton_eq_append_iff, hne] at hrest
  refine eq_of_splitOn_eq (c := '\n') ?_
  rw [List.splitOn_append_cons_self, hfront, splitOn_unlines hls, List.splitOn_nil]

/-! ## Lines of a document -/

/-- The lines of the text of a document. -/
def Document.lines (d : Document) : List (List Char) :=
  headerLine d.header :: d.records.map recordLine ++ [trailerTag ++ Blake3.digest (utf8 d.body)]

/-- The text of a document is its lines, written out. -/
theorem Document.chars_eq (d : Document) : d.chars = unlines d.lines := by
  simp [chars, trailer, lines, body, unlines]

/-- The trailer is on one line. -/
theorem oneLine_trailerLine (body : List Char) :
    OneLine (trailerTag ++ Blake3.digest (utf8 body)) :=
  oneLine_append.mpr ⟨by decide, (Blake3.isWord_digest _).2.oneLine⟩

/-- Each of the lines of a document is one line. -/
theorem Document.oneLine_lines (d : Document) : ∀ l ∈ d.lines, OneLine l :=
  List.forall_mem_append.mpr ⟨d.oneLine_body, List.forall_mem_singleton.mpr (oneLine_trailerLine d.body)⟩

/-- A header line starts with the tag of headers. -/
theorem firstPiece_headerLine (h : Header) : firstPiece (headerLine h) = headerTag := by
  rw [headerLine, joinFields_cons headerTag (List.cons_ne_nil _ _),
    firstPiece_append isWord_headerTag.no_space]

/-- A line with a tag of its own does not start with the tag of trailers. -/
theorem not_trailer_of_firstPiece {line tag : List Char} (h : firstPiece line = tag)
    (htag : tag ≠ "END".toList) : ¬ trailerTag <+: line := by
  rintro ⟨rest, rfl⟩
  have hword : IsWord "END".toList := by decide
  have hsplit : trailerTag = "END".toList ++ [' '] := by decide
  rw [hsplit, List.append_assoc, List.singleton_append, firstPiece_append hword.no_space] at h
  exact htag h.symm

/-- The line of a node is read as that node, and the line of a link as that link. -/
def ReadsAs (line : List Char) (a : Atom) : Prop :=
  (a.isNode = true ∧ firstPiece line = nodeTag ∧ readNode line = .ok a) ∨
    (a.isLink = true ∧ firstPiece line = linkTag ∧ readLink line = .ok a)

/-- The record line of an atom whose numbers fit into words is read as that atom. -/
theorem readsAs_recordLine {a : Atom} (ha : a.InWords) : ReadsAs (recordLine a) a := by
  have hrecord := isRecord_recordLine ha
  cases hnode : a.isNode with
  | true =>
    have htag := hrecord.isNode_iff.mp hnode
    exact .inl ⟨hnode, htag, (readNode_eq_ok htag).mpr hrecord⟩
  | false =>
    have hlink := Atom.isLink_of_not_isNode hnode
    have htag := hrecord.isLink_iff.mp hlink
    exact .inr ⟨hlink, htag, (readLink_eq_ok htag).mpr hrecord⟩

/-- A line that is read as an atom does not start with the tag of trailers. -/
theorem ReadsAs.not_trailer {line : List Char} {a : Atom} (h : ReadsAs line a) :
    ¬ trailerTag <+: line := by
  rcases h with ⟨-, htag, -⟩ | ⟨-, htag, -⟩
  · exact not_trailer_of_firstPiece htag (by decide)
  · exact not_trailer_of_firstPiece htag (by decide)

/-- The tag of trailers stands behind the newline that ends the body, and behind no other. -/
theorem Document.trailer_iff {d : Document} (hwords : ∀ a ∈ d.records, a.InWords)
    {front behind : List Char} :
    d.chars = front ++ '\n' :: (trailerTag ++ behind)
      ↔ front ++ ['\n'] = d.body ∧ behind = Blake3.digest (utf8 d.body) ++ ['\n'] := by
  have hother : ∀ l ∈ headerLine d.header :: d.records.map recordLine, ¬ trailerTag <+: l := by
    refine List.forall_mem_cons.mpr ⟨?_, List.forall_mem_map.mpr fun a ha => ?_⟩
    · exact not_trailer_of_firstPiece (firstPiece_headerLine d.header) (by decide)
    · exact (readsAs_recordLine (hwords a ha)).not_trailer
  constructor
  · intro htext
    have hfront : front ++ ['\n'] = d.body :=
      front_eq_of_mark d.oneLine_body (oneLine_trailerLine d.body) (by decide) (by decide) hother
        (d.chars_eq.symm.trans htext)
    -- The tag stands behind the body, so what follows it is the rest of the trailer.
    have htail : d.body ++ trailer d.body = d.body ++ (trailerTag ++ behind) :=
      calc d.body ++ trailer d.body = front ++ '\n' :: (trailerTag ++ behind) := htext
        _ = d.body ++ (trailerTag ++ behind) := by
            rw [← hfront, List.append_assoc]
            rfl
    rw [List.append_cancel_left_eq, trailer, List.append_assoc, List.append_cancel_left_eq] at htail
    exact ⟨hfront, htail.symm⟩
  · rintro ⟨hfront, rfl⟩
    rw [chars, trailer, ← hfront]
    simp

/-! ## The text of a store -/

/-- Nodes stand in front of links, and atoms of one sort in the order of their ids. -/
def WrittenBefore (a b : Atom) : Prop :=
  (a.isNode = b.isNode ∧ a.id < b.id) ∨ (a.isNode = true ∧ b.isLink = true)

/-- The nodes of a store by id and then its links by id are in the order in which atoms are written. -/
theorem pairwise_writtenBefore {s : Store} (hs : s.Sound) :
    (s.query Atom.isNode ++ s.query Atom.isLink).Pairwise WrittenBefore := by
  have hnode : ∀ a ∈ s.query Atom.isNode, a.isNode = true := fun a ha => (List.mem_filter.mp ha).2
  have hlink : ∀ a ∈ s.query Atom.isLink, a.isLink = true := fun a ha => (List.mem_filter.mp ha).2
  refine List.pairwise_append.mpr ⟨?_, ?_, fun a ha b hb => .inr ⟨hnode a ha, hlink b hb⟩⟩
  · refine (hs.pairwise_atoms.filter Atom.isNode).imp_of_mem fun {a b} ha hb hlt => .inl ⟨?_, hlt⟩
    rw [hnode a ha, hnode b hb]
  · refine (hs.pairwise_atoms.filter Atom.isLink).imp_of_mem fun {a b} ha hb hlt => .inl ⟨?_, hlt⟩
    have hsort : a.isLink = b.isLink := (hlink a ha).trans (hlink b hb).symm
    rwa [Atom.isLink, Atom.isLink, Bool.not_inj_iff] at hsort

/-- The text of a store as that of a document. -/
structure LaidOut (s : Store) (text : List Char) (d : Document) : Prop where
  /-- Each live atom has one record. -/
  records : d.records.Perm s.atoms
  sorted : d.records.Pairwise WrittenBefore
  /-- Cut at its newlines, the text is its lines and nothing behind them. -/
  split : text.splitOn '\n' = d.lines ++ [[]]
  /-- The reader, to whom a carriage return can belong to a line end, finds the same lines. -/
  lines_eq : lines text = d.lines
  length : d.lines.length = s.size + 2
  /-- Behind the header stands the record of the first atom, and so on. -/
  record : ∀ i a, d.records[i]? = some a →
    d.lines[i + 1]? = some (recordLine a) ∧ ReadsAs (recordLine a) a
  /-- The tag of trailers stands behind a newline only once. -/
  trailer : ∀ front behind, text = front ++ '\n' :: (trailerTag ++ behind)
    ↔ front ++ ['\n'] = d.body ∧ behind = Blake3.digest (utf8 d.body) ++ ['\n']
  /-- There the reader cuts the text. -/
  cut : splitTrailer? (withoutFinalNewlines text) = some (d.body, Blake3.digest (utf8 d.body))

/-- The reader cuts the text of a document between its body and its digest. -/
theorem Document.splitTrailer?_chars (d : Document) :
    splitTrailer? (withoutFinalNewlines d.chars) = some (d.body, Blake3.digest (utf8 d.body)) := by
  obtain ⟨front, hbody, hcut⟩ := d.exists_cutAt
  rw [hcut.splitTrailer?, trimBlanks_word (Blake3.isWord_digest _), hbody]

/-- The text of a document is laid out as the document of a store if its records are the atoms of the
store in that order. -/
theorem laidOut_chars {s : Store} (hs : s.Sound) {d : Document} (hatoms : ∀ a ∈ s.atoms, a.InWords)
    (hrecords : d.records = s.query Atom.isNode ++ s.query Atom.isLink) : LaidOut s d.chars d := by
  have hperm : d.records.Perm s.atoms := hrecords ▸ List.filter_append_perm Atom.isNode s.atoms
  have hwords : ∀ a ∈ d.records, a.InWords := fun a ha => hatoms a (hperm.mem_iff.mp ha)
  refine
    { records := hperm
      sorted := hrecords ▸ pairwise_writtenBefore hs
      split := by rw [d.chars_eq, splitOn_unlines d.oneLine_lines]
      lines_eq := by rw [d.chars_eq, lines_unlines d.oneLine_lines]
      length := ?_
      record := fun i a ha => ⟨?_, readsAs_recordLine (hwords a (List.mem_of_getElem? ha))⟩
      trailer := fun _ _ => Document.trailer_iff hwords
      cut := d.splitTrailer?_chars }
  · rw [s.size_eq_length_atoms, ← hperm.length_eq, Document.lines]
    simp
  · have hlt : i < d.records.length := (List.getElem?_eq_some_iff.mp ha).1
    rw [Document.lines, List.cons_append, List.getElem?_cons_succ,
      List.getElem?_append_left (by rwa [List.length_map]), List.getElem?_map, ha]
    rfl

/-- Whatever the labels are, the text of a store has one line for each atom, which reads back as that atom,
and one trailer. -/
theorem write_laidOut {s : Store} (hs : s.Reachable) (hids : s.nextId ≤ UInt64.size)
    (hacyclic : ¬ Cyclic (s.query Atom.isLink)) (spaceId : SpaceId) (time : Timestamp) :
    ∃ header text, write s spaceId time = .ok (header, text) ∧
      LaidOut s text ⟨header, s.query Atom.isNode ++ s.query Atom.isLink⟩ :=
  ⟨_, _, write_of_not_cyclic hs.sound hacyclic spaceId time,
    laidOut_chars hs.sound (hs.inWords hids) rfl⟩

/-- Labels that look like records, line ends and a trailer. -/
def forgedOperations : List Operation :=
  [.createNode .concept (some "a\nEND 00\r\nNODE 7 \"b\""), .createNode .predicate (some "\r"),
    .createLink .list (.one 4 (by decide)), .createNode .concept (some "\" LINK 3\nEND "),
    .createNode .predicate none]

/-- The text has six lines behind its header for the five atoms. -/
theorem write_laidOut_forged :
    ∃ header text, write ((Store.empty none).run forgedOperations).2 0 Timestamp.epoch
        = .ok (header, text) ∧
      LaidOut ((Store.empty none).run forgedOperations).2 text
        ⟨header, ((Store.empty none).run forgedOperations).2.query Atom.isNode
          ++ ((Store.empty none).run forgedOperations).2.query Atom.isLink⟩ ∧
      (text.splitOn '\n').length = 8 := by
  have hs : ((Store.empty none).run forgedOperations).2.Reachable := ⟨none, forgedOperations, rfl⟩
  have hacyclic : ¬ Cyclic (((Store.empty none).run forgedOperations).2.query Atom.isLink) :=
    (exists_creationOrder_iff (query_link_ids hs.sound)).mp ⟨_, rfl⟩
  obtain ⟨header, text, hwrite, hlaidOut⟩ := write_laidOut hs (by decide) hacyclic 0 Timestamp.epoch
  refine ⟨header, text, hwrite, hlaidOut, ?_⟩
  rw [hlaidOut.split, List.length_append, hlaidOut.length]
  rfl

end BeliefGraph.Snapshot
