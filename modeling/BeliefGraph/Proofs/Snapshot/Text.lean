import BeliefGraph.Proofs.Snapshot.Format
import BeliefGraph.Proofs.Snapshot.Lines

/-!
# Texts of snapshots read back

The text of a document reads back as the document, up to the nanoseconds of its time that are not
written. `Document.Readable` is what the text has room for: a time of the calendar, a count of the
records, nodes in front of links, and an id of its own for each record.
-/

namespace BeliefGraph.Snapshot

/-- The header that is read of one that was written: its time is in microseconds. -/
def Header.written (h : Header) : Header := { h with exportedAt := h.exportedAt.inMicroseconds }

/-- The document that is read of one that was written. -/
def Document.written (d : Document) : Document := { d with header := d.header.written }

/-- What the header of a text has room for. -/
structure Header.Readable (h : Header) : Prop where
  version : h.version = Snapshot.version
  atomCount : h.atomCount < UInt64.size
  exportedAt : h.exportedAt.isValid = true

/-- What a text has room for. -/
structure Document.Readable (d : Document) : Prop where
  header : d.header.Readable
  counted : d.header.atomCount = d.records.length
  /-- No node stands behind a link. -/
  sorted : d.records.Pairwise fun a b => a.isLink = true → b.isLink = true
  ids : (d.records.map Atom.id).Nodup
  words : ∀ a ∈ d.records, a.InWords

/-! ## The header line -/

/-- The tag of the header line is a word. -/
theorem isWord_headerTag : IsWord headerTag := by decide

/-- Each field of a header line is a word. -/
theorem isWord_headerFields (h : Header) :
    ∀ field ∈ [headerTag, natField h.version, natField h.atomCount, h.spaceId.chars,
      h.exportedAt.chars], IsWord field := by
  simp only [List.forall_mem_cons]
  exact ⟨isWord_headerTag, isWord_toDigits _, isWord_toDigits _, h.spaceId.isWord_chars,
    h.exportedAt.isWord_chars, by simp⟩

/-- The header is written on one line. -/
theorem oneLine_headerLine (h : Header) : OneLine (headerLine h) :=
  oneLine_joinFields fun field hfield => (isWord_headerFields h field hfield).2.oneLine

/-- The header line reads as the header, its time cut to microseconds. -/
theorem isHeader_headerLine {h : Header} (hh : h.Readable) :
    IsHeader readTimes (headerLine h) h.written := by
  have hversion : readNat UInt32.size (natField h.version) = .ok version := by
    rw [hh.version, readNat, natField, Integer.readNat_toDigits (by decide)]
    rfl
  exact ⟨_, _, _, _, [], words_joinFields (isWord_headerFields h), hversion, hh.version,
    readWord_natField hh.atomCount, h.spaceId.read_chars, Timestamp.read_chars hh.exportedAt⟩

/-! ## The whole text -/

/-- Written lines end with a line break. -/
theorem exists_unlines_eq {ls : List (List Char)} (h : ls ≠ []) :
    ∃ front, unlines ls = front ++ ['\n'] := by
  obtain ⟨init, l, rfl⟩ := (List.eq_nil_or_concat ls).resolve_left h
  exact ⟨unlines init ++ l, by simp [unlines]⟩

/-- The header and the records are one line each. -/
theorem Document.oneLine_body (d : Document) :
    ∀ l ∈ headerLine d.header :: d.records.map recordLine, OneLine l :=
  List.forall_mem_cons.mpr
    ⟨oneLine_headerLine d.header, List.forall_mem_map.mpr fun a _ => oneLine_recordLine a⟩

/-- The newline that ends the body is the one that the mark of the trailer starts with. -/
theorem Document.exists_cutAt (d : Document) :
    ∃ front, d.body = front ++ ['\n'] ∧ CutAt d.chars front (Blake3.digest (utf8 d.body)) := by
  obtain ⟨front, hfront⟩ := exists_unlines_eq (List.cons_ne_nil (headerLine d.header)
    (d.records.map recordLine))
  have hbody : d.body = front ++ ['\n'] := hfront
  have hcut := cutAt_trailer front
  rw [← hbody] at hcut
  exact ⟨front, hbody, hcut⟩

/-- The text of a document holds the document. -/
theorem isDocument_chars {d : Document} (hd : d.Readable) : IsDocument readTimes d.chars d.written := by
  obtain ⟨front, hbody, hcut⟩ := d.exists_cutAt
  have hlines : lines d.body = headerLine d.header :: d.records.map recordLine :=
    lines_unlines d.oneLine_body
  refine ⟨d.records.map recordLine, ⟨front, _, _, hcut, ?_, ?_, isHeader_headerLine hd.header⟩,
    areRecords_map hd.sorted hd.ids hd.words, hd.counted⟩
  · rw [← hbody]
    exact trimBlanks_word (Blake3.isWord_digest _)
  · rw [← hbody, hlines]

/-- The text of a readable document reads back as this document, as it was written. -/
theorem readText_chars {d : Document} (hd : d.Readable) : readText d.chars = .ok d.written :=
  readText_eq_ok.mpr (isDocument_chars hd)

/-- Characters are encoded in UTF-8 and decoded again. -/
theorem fromUTF8?_toUTF8 (s : String) : String.fromUTF8? s.toUTF8 = some s := by
  rw [String.fromUTF8?, String.toUTF8_eq_toByteArray, dif_pos s.isValidUTF8]
  rfl

/-- The bytes of a document read back as the document. -/
theorem read_toUTF8 {d : Document} (hd : d.Readable) :
    read (String.ofList d.chars).toUTF8 = .ok d.written := by
  rw [read, fromUTF8?_toUTF8]
  show readText (String.ofList d.chars).toList = _
  rw [String.toList_ofList, readText_chars hd]

end BeliefGraph.Snapshot
