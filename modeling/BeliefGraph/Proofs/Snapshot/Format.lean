import BeliefGraph.Proofs.Snapshot.Grammar

/-!
# Which texts are snapshots

`IsDocument` says which texts hold a document, without a reader: where the trailer starts and what it
must say, what the header line and the record lines look like, and how many records there are. The
reader accepts exactly these texts, and where only the record lines are at fault it blames the first
line up to which they are not records (`readText_exact`).

The form of times is a parameter. The reader takes more times than RFC 3339 allows, so the format with
the times of RFC 3339 is smaller than what is accepted.
-/

namespace BeliefGraph.Snapshot

/-! ## The header -/

/-- What texts of times there are, and which times they stand for. -/
abbrev TimeForm := List Char → Timestamp → Prop

/-- The times that the reader takes. -/
def readTimes : TimeForm := fun token t => Timestamp.read token = some t

/-- A line is a header. What stands behind the time does not count. -/
def IsHeader (times : TimeForm) (line : List Char) (h : Header) : Prop :=
  ∃ found count space time extras,
    words line = headerTag :: found :: count :: space :: time :: extras ∧
      readNat UInt32.size found = .ok version ∧ h.version = version ∧
      readWord count = .ok h.atomCount ∧ SpaceId.read space = some h.spaceId ∧
      times time h.exportedAt

/-- A field of a foreign form is read as what its reader gives. -/
theorem readForm_eq_ok {α : Type} {read : List Char → Option α} {cs : List Char} {a : α} :
    readForm read cs = .ok a ↔ read cs = some a := by
  rw [readForm]
  cases read cs <;> simp

/-- A field of a line is read, and then what follows it. -/
theorem located_bind_eq_ok {α β : Type} {field : String} {read : List Char → Except (Option String) α}
    {fields : Fields} {located : Fault → SnapshotError} {next : α × Fields → Except SnapshotError β}
    {b : β} :
    ((nextField field read fields).mapError located >>= next) = .ok b
      ↔ ∃ token a rest, fields = token :: rest ∧ read token = .ok a ∧ next (a, rest) = .ok b := by
  rw [bind_eq_ok]
  constructor
  · rintro ⟨⟨a, rest⟩, h, hnext⟩
    cases hfield : nextField field read fields with
    | error fault => simp [hfield, Except.mapError] at h
    | ok result =>
      rw [hfield] at h
      cases h
      obtain ⟨token, hfields, hread⟩ := nextField_eq_ok.mp hfield
      exact ⟨token, a, rest, hfields, hread, hnext⟩
  · rintro ⟨token, a, rest, hfields, hread, hnext⟩
    rw [nextField_eq_ok.mpr ⟨token, hfields, hread⟩]
    exact ⟨(a, rest), rfl, hnext⟩

/-- A line is read as a header exactly if it is the line of that header. -/
theorem readHeader_eq_ok {line : List Char} {h : Header} :
    readHeader line = .ok h ↔ IsHeader readTimes line h := by
  rw [readHeader]
  constructor
  · intro hread
    split at hread
    · cases hread
    · next tag fields hwords =>
      split at hread
      · cases hread
      · next htag =>
        rw [not_not] at htag
        subst htag
        -- The version is looked at before the fields behind it are read.
        obtain ⟨found, n, _, rfl, hfound, hread⟩ := located_bind_eq_ok.mp hread
        dsimp only at hread
        split at hread
        · cases hread
        · next hversion =>
          rw [not_not] at hversion
          subst hversion
          obtain ⟨count, _, _, rfl, hcount, hread⟩ := located_bind_eq_ok.mp hread
          obtain ⟨space, _, _, rfl, hspace, hread⟩ := located_bind_eq_ok.mp hread
          obtain ⟨time, _, extras, rfl, htime, hread⟩ := located_bind_eq_ok.mp hread
          cases hread
          exact ⟨found, count, space, time, extras, hwords, hfound, rfl, hcount,
            readForm_eq_ok.mp hspace, readForm_eq_ok.mp htime⟩
  · rintro ⟨found, count, space, time, extras, hwords, hfound, hversion, hcount, hspace, htime⟩
    rw [hwords]
    simp only [ne_eq, not_true_eq_false, if_false]
    refine located_bind_eq_ok.mpr ⟨found, _, _, rfl, hfound, ?_⟩
    rw [if_neg (not_not.mpr rfl)]
    refine located_bind_eq_ok.mpr ⟨count, _, _, rfl, hcount, ?_⟩
    refine located_bind_eq_ok.mpr ⟨space, _, _, rfl, readForm_eq_ok.mpr hspace, ?_⟩
    refine located_bind_eq_ok.mpr ⟨time, _, extras, rfl, readForm_eq_ok.mpr htime, ?_⟩
    rw [← hversion]
    rfl

/-! ## The trailer -/

/-- A text is the one without newlines at its end and some newlines. -/
theorem exists_newlines (cs : List Char) :
    ∃ n, cs = withoutFinalNewlines cs ++ List.replicate n '\n' := by
  have hnewlines : ∀ c ∈ cs.reverse.takeWhile (· == '\n'), c = '\n' := fun c hc =>
    eq_of_beq (List.mem_takeWhile_imp (p := (· == '\n')) hc)
  have hreplicate := List.eq_replicate_of_mem hnewlines
  refine ⟨(cs.reverse.takeWhile (· == '\n')).length, ?_⟩
  rw [withoutFinalNewlines, ← List.reverse_inj, List.reverse_append, List.reverse_reverse,
    List.reverse_replicate, ← hreplicate, List.takeWhile_append_dropWhile]

/-- Without its final newlines a text does not end in one. -/
theorem getLast?_withoutFinalNewlines (cs : List Char) :
    (withoutFinalNewlines cs).getLast? ≠ some '\n' := by
  rw [withoutFinalNewlines, List.getLast?_reverse]
  intro hlast
  have hnot := List.head?_dropWhile_not (· == '\n') cs.reverse
  rw [hlast] at hnot
  simp at hnot

/-- The newlines that are put behind a text are the final newlines of the whole. -/
theorem withoutFinalNewlines_append {text : List Char} (hlast : text.getLast? ≠ some '\n') (n : Nat) :
    withoutFinalNewlines (text ++ List.replicate n '\n') = text := by
  rw [withoutFinalNewlines, List.reverse_append, List.reverse_replicate,
    List.dropWhile_append_of_pos fun c hc => beq_iff_eq.mpr (List.eq_of_mem_replicate hc)]
  rw [← List.head?_reverse] at hlast
  cases hreverse : text.reverse with
  | nil => rw [List.reverse_eq_nil_iff.mp hreverse]; rfl
  | cons c cs =>
    have hc : (c == '\n') = false := by
      rw [hreverse] at hlast
      simpa using hlast
    rw [List.dropWhile_cons, hc, if_neg Bool.false_ne_true, ← hreverse, List.reverse_reverse]

/-- A text without final newlines is what is left of it with any number of them. -/
theorem withoutFinalNewlines_eq_iff {cs text : List Char} :
    withoutFinalNewlines cs = text
      ↔ (∃ n, cs = text ++ List.replicate n '\n') ∧ text.getLast? ≠ some '\n' := by
  constructor
  · rintro rfl
    exact ⟨exists_newlines cs, getLast?_withoutFinalNewlines cs⟩
  · rintro ⟨⟨n, rfl⟩, hlast⟩
    exact withoutFinalNewlines_append hlast n

/-- Where the trailer of a text starts. The newlines at the end of the text do not count, and of the lines
that start with the tag of trailers it is the last. -/
structure CutAt (cs front stored : List Char) : Prop where
  text : ∃ n, cs = front ++ '\n' :: trailerTag ++ stored ++ List.replicate n '\n'
  ends : stored.getLast? ≠ some '\n'
  last : ∀ front' stored', front ++ '\n' :: trailerTag ++ stored
    = front' ++ '\n' :: trailerTag ++ stored' → front'.length ≤ front.length

/-- Where the trailer starts is where the text without final newlines is cut at the last tag. -/
theorem cutAt_iff {cs front stored : List Char} :
    CutAt cs front stored
      ↔ splitAtLast? ('\n' :: trailerTag) (withoutFinalNewlines cs) = some (front, stored) := by
  have hends : (front ++ '\n' :: trailerTag ++ stored).getLast? ≠ some '\n'
      ↔ stored.getLast? ≠ some '\n' := by
    rw [List.getLast?_append]
    cases stored.getLast? with
    | some c => simp
    | none => simp [trailerTag, List.getLast?_append]
  rw [splitAtLast?_eq_some_iff (List.cons_ne_nil _ _), withoutFinalNewlines_eq_iff, hends]
  constructor
  · rintro ⟨htext, hend, hlast⟩
    have hstrip := withoutFinalNewlines_eq_iff.mpr ⟨htext, hends.mpr hend⟩
    refine ⟨⟨htext, hend⟩, fun front' stored' heq => hlast front' stored' ?_⟩
    rw [← heq, hstrip]
  · rintro ⟨⟨htext, hend⟩, hlast⟩
    have hstrip := withoutFinalNewlines_eq_iff.mpr ⟨htext, hends.mpr hend⟩
    exact ⟨htext, hend, fun front' stored' heq => hlast front' stored' (hstrip.trans heq)⟩

/-- A text that ends with the trailer of its body is cut there. -/
theorem cutAt_trailer (front : List Char) :
    CutAt (front ++ ['\n'] ++ trailer (front ++ ['\n'])) front
      (Blake3.digest (utf8 (front ++ ['\n']))) where
  text := ⟨1, by simp [trailer]⟩
  ends hlast := by
    have hblank := (Blake3.isWord_digest _).2 '\n' (List.mem_of_getLast? hlast)
    exact absurd hblank (by decide)
  last front' stored' heq := by
    have htag : OneLine trailerTag := by decide
    have hcut := splitAtLast?_append htag (Blake3.isWord_digest (utf8 (front ++ ['\n']))).2.oneLine front
    rw [← List.cons_append, ← List.append_assoc] at hcut
    exact ((splitAtLast?_eq_some_iff (List.cons_ne_nil _ _)).mp hcut).2 front' stored' heq

/-- A text is cut in one place. -/
theorem CutAt.unique {cs front stored front' stored' : List Char} (h : CutAt cs front stored)
    (h' : CutAt cs front' stored') : front = front' := by
  rw [cutAt_iff] at h h'
  rw [h] at h'
  cases h'
  rfl

/-- Where the trailer starts the reader cuts the text, and it puts the newline on the side of the body. -/
theorem CutAt.splitTrailer? {cs front stored : List Char} (h : CutAt cs front stored) :
    splitTrailer? (withoutFinalNewlines cs) = some (front ++ ['\n'], trimBlanks stored) := by
  rw [Snapshot.splitTrailer?, cutAt_iff.mp h]
  rfl

/-! ## Documents -/

/-- All of a text but its record lines is as it has to be: the trailer holds the digest of the body, which
is what stands in front of it, and the first line of the body is the header. -/
def Framed (times : TimeForm) (cs : List Char) (header : Header) (ls : List (List Char)) : Prop :=
  ∃ front stored line, CutAt cs front stored ∧
    trimBlanks stored = Blake3.digest (utf8 (front ++ ['\n'])) ∧
    lines (front ++ ['\n']) = line :: ls ∧ IsHeader times line header

/-- A text holds a document: the lines behind the header are its records, in their order, and the header
counts them. -/
def IsDocument (times : TimeForm) (cs : List Char) (d : Document) : Prop :=
  ∃ ls, Framed times cs d.header ls ∧ AreRecords ls d.records ∧
    d.header.atomCount = d.records.length

/-- The record lines, and then their number, decide about a text that has its frame. -/
theorem Framed.readText_eq {cs : List Char} {header : Header} {ls : List (List Char)}
    (h : Framed readTimes cs header ls) :
    readText cs = readRecords 2 false ∅ ls >>= fun records =>
      if header.atomCount = records.length then .ok ⟨header, records⟩
      else .error (.countMismatch header.atomCount records.length) := by
  obtain ⟨front, stored, line, hcut, hstored, hlines, hheader⟩ := h
  unfold readText
  simp only [hcut.splitTrailer?]
  rw [if_neg (not_not.mpr hstored), hlines]
  show (readHeader line >>= _) = _
  rw [readHeader_eq_ok.mpr hheader]
  rfl

/-- A document is read only of a text that has its frame. -/
theorem framed_of_readText {cs : List Char} {d : Document} (h : readText cs = .ok d) :
    ∃ ls, Framed readTimes cs d.header ls := by
  simp only [readText] at h
  split at h
  · cases h
  · next body stored hsplit =>
    obtain ⟨⟨front, behind⟩, hcut, hpair⟩ := Option.map_eq_some_iff.mp hsplit
    cases hpair
    split at h
    · cases h
    · next hstored =>
      rw [not_not] at hstored
      have hbody : front ++ ['\n'] ≠ [] := by simp
      -- The body ends with a newline, so there is a header line, if an empty one.
      obtain ⟨line, ls, hlines⟩ := List.exists_cons_of_ne_nil (lines_ne_nil hbody)
      rw [hlines] at h
      obtain ⟨header, hheader, h⟩ := bind_eq_ok.mp h
      obtain ⟨records, -, h⟩ := bind_eq_ok.mp h
      split at h
      · cases h
        exact ⟨ls, front, behind, line, cutAt_iff.mpr hcut, hstored, hlines, readHeader_eq_ok.mp hheader⟩
      · cases h

/-- The reader accepts exactly the texts that hold documents. -/
theorem readText_eq_ok {cs : List Char} {d : Document} :
    readText cs = .ok d ↔ IsDocument readTimes cs d := by
  obtain ⟨header, records⟩ := d
  constructor
  · intro h
    obtain ⟨ls, hframed⟩ := framed_of_readText h
    rw [hframed.readText_eq] at h
    obtain ⟨found, hrecords, h⟩ := bind_eq_ok.mp h
    split at h
    · next hcount =>
      cases h
      exact ⟨ls, hframed, readRecords_eq_ok.mp hrecords, hcount⟩
    · cases h
  · rintro ⟨ls, hframed, hrecords, hcount⟩
    rw [hframed.readText_eq, readRecords_eq_ok.mpr hrecords]
    exact if_pos hcount

/-- What is read is a document. -/
theorem exists_isDocument_of_read {bytes : ByteArray} {d : Document} (h : read bytes = .ok d) :
    ∃ cs, IsDocument readTimes cs d := by
  rw [read] at h
  split at h
  · next text _ => exact ⟨text.toList, readText_eq_ok.mp h⟩
  · cases h

/-! ## The reader -/

/-- The texts that the reader accepts are those of the format, and where only the record lines do not fit
the reader names the first line at which they do not. -/
structure ReadsExactly (times : TimeForm) (cs : List Char) : Prop where
  accepts_iff : ∀ d, readText cs = .ok d ↔ IsDocument times cs d
  first_offence : ∀ header ls, Framed times cs header ls → (¬ ∃ as, AreRecords ls as) →
    ∃ front line rest as fault, ls = front ++ line :: rest ∧
      AreRecords front as ∧ (¬ ∃ bs, AreRecords (front ++ [line]) bs) ∧ Offends as line fault ∧
      readText cs = .error (.malformed (front.length + 2) fault)

/-- The reader accepts exactly the texts of the format and reports the first offence. -/
theorem readText_exact (cs : List Char) : ReadsExactly readTimes cs where
  accepts_iff _ := readText_eq_ok
  first_offence header ls hframed hrecords := by
    obtain ⟨front, line, rest, as, fault, hls, hfront, hoffends, hread⟩ := exists_offends 2 hrecords
    refine ⟨front, line, rest, as, fault, hls, hfront, hoffends.not_areRecords hfront, hoffends, ?_⟩
    rw [hframed.readText_eq, hread, Nat.add_comm 2]
    rfl

/-! ## Times that are not RFC 3339 -/

/-- A text with all digits alike. -/
def digitShape (cs : List Char) : List Char := cs.map fun c => if c.isDigit then '0' else c

/-- The times of RFC 3339: four digits for the year and two for each other part, and an offset of hours and
minutes with a colon between them. -/
def rfc3339Times : TimeForm := fun token t =>
  Timestamp.read token = some t ∧ ∃ separator fraction offset,
    digitShape token = "0000-00-00".toList ++ separator :: "00:00:00".toList ++ fraction ++ offset ∧
      (separator = 'T' ∨ separator = 't') ∧
      (fraction = [] ∨ ∃ n, fraction = '.' :: List.replicate (n + 1) '0') ∧
      (offset = ['Z'] ∨ offset = ['z'] ∨ offset = "+00:00".toList ∨ offset = "-00:00".toList)

/-- A header with a time of one digit in each part. -/
def shortDatedLine : List Char :=
  "ATOMSPACE 1 0 00000000-0000-0000-0000-000000000000 2026-1-1T0:0:0Z".toList

/-- A text without records. -/
def shortDated : List Char := shortDatedLine ++ ['\n'] ++ trailer (shortDatedLine ++ ['\n'])

/-- The header line with the short date has five words. -/
theorem words_shortDatedLine : words shortDatedLine
    = [headerTag, ['1'], ['0'], "00000000-0000-0000-0000-000000000000".toList,
      "2026-1-1T0:0:0Z".toList] := by decide

/-- The body of the text with the short date has one line. -/
theorem lines_shortDated : lines (shortDatedLine ++ ['\n']) = [shortDatedLine] := by
  have hline : OneLine shortDatedLine := by decide
  exact lines_append hline []

/-- The text with the short date is a document for the reader. -/
theorem isDocument_shortDated :
    IsDocument readTimes shortDated ⟨⟨version, 0, 0, ⟨⟨2026, 1, 1⟩, 0, 0, 0⟩⟩, []⟩ := by
  have htime : Timestamp.read "2026-1-1T0:0:0Z".toList = some ⟨⟨2026, 1, 1⟩, 0, 0, 0⟩ := by decide
  have hheader : IsHeader readTimes shortDatedLine ⟨version, 0, 0, ⟨⟨2026, 1, 1⟩, 0, 0, 0⟩⟩ :=
    ⟨_, _, _, _, [], words_shortDatedLine, by decide, rfl, by decide, by decide, htime⟩
  refine ⟨[], ⟨shortDatedLine, _, shortDatedLine, cutAt_trailer _, ?_, lines_shortDated, hheader⟩,
    .nil, rfl⟩
  exact trimBlanks_word (Blake3.isWord_digest _)

/-- The short date is no time of the strict form. -/
theorem not_rfc3339Times_shortDated (t : Timestamp) :
    ¬ rfc3339Times "2026-1-1T0:0:0Z".toList t := by
  rintro ⟨-, separator, fraction, offset, hshape, -⟩
  -- The seventh character ought to be a digit of the month.
  have hseventh := congrArg (fun cs => cs[6]?) hshape
  simp [digitShape] at hseventh

/-- The reader accepts a time that is not one of RFC 3339. -/
theorem readText_accepts_shortDated : ¬ ReadsExactly rfc3339Times shortDated := by
  intro h
  obtain ⟨ls, ⟨front, stored, line, hcut, -, hlines, hheader⟩, -⟩ :=
    (h.accepts_iff _).mp (readText_eq_ok.mpr isDocument_shortDated)
  obtain rfl := hcut.unique (cutAt_trailer shortDatedLine)
  rw [lines_shortDated] at hlines
  obtain ⟨found, count, space, time, extras, hwords, -, -, -, -, htime⟩ := hheader
  rw [← (List.cons.inj hlines).1, words_shortDatedLine] at hwords
  cases hwords
  exact not_rfc3339Times_shortDated _ htime

end BeliefGraph.Snapshot
