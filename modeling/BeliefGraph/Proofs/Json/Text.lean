import BeliefGraph.Json.Parser
import BeliefGraph.Proofs.Text.Split

/-!
# Quoted text reads back

Every text can be quoted: the reader gives the code points of its characters, and since no character is
a surrogate they make the same text again. A quoted text stands on one line.
-/

namespace BeliefGraph.Json

/-! ## Scanning -/

/-- Reading a character back from how it is written adds its code point. -/
theorem scanString_escape (c : Char) (rest : List Char) :
    scanString (escape c ++ rest)
      = (scanString rest).map fun (points, rest) => (c.toNat :: points, rest) := by
  unfold escape
  -- Seven characters have an escape of their own.
  iterate 7 (split; · next h => subst h; simp [scanString, unescape?])
  split
  · -- A control character without a letter of its own.
    next hcontrol =>
    have hread := Hex.read?_digits 4 c.toNat
    have hlength := Hex.length_digits 4 c.toNat
    match hdigits : Hex.digits 4 c.toNat, hlength with
    | [d₁, d₂, d₃, d₄], _ =>
      rw [hdigits, Nat.mod_eq_of_lt (Nat.lt_trans hcontrol (by decide))] at hread
      simp [scanString, hread]
  · next hquote hbackslash _ _ _ _ _ hcontrol =>
    rw [List.singleton_append, scanString]
    · rw [if_neg hcontrol]
    · exact hquote
    · rintro _ _ _ _ _ rfl
      exact absurd rfl hbackslash
    · rintro _ _ rfl
      exact absurd rfl hbackslash

/-- The escapes of some characters, up to the closing quote, are scanned as these characters. -/
theorem scanString_quoted (text rest : List Char) :
    scanString (text.flatMap escape ++ '"' :: rest) = some (text.map Char.toNat, rest) := by
  induction text with
  | nil => rw [List.flatMap_nil, List.nil_append, scanString, List.map_nil]
  | cons c text ih =>
    rw [List.flatMap_cons, List.append_assoc, scanString_escape, ih]
    rfl

/-- A quoted text is parsed as the string of its characters. -/
theorem parse?_quote (text : List Char) : parse? (quote text) = some (string (text.map Char.toNat)) := by
  have hscan : scanValue (2 * (quote text).length + 1) (quote text)
      = some (string (text.map Char.toNat), []) := by
    have hblank : isBlank '"' = false := by decide
    simp only [quote, scanValue, skipBlanks, List.cons_append, List.dropWhile_cons, hblank,
      Bool.false_eq_true, if_false, scanString_quoted, Option.map_some]
  rw [parse?, hscan]
  rfl

/-! ## Code points -/

/-- A character is no half of a surrogate pair. -/
theorem not_surrogate (c : Char) :
    isHighSurrogate c.toNat = false ∧ isLowSurrogate c.toNat = false := by
  have hvalid : c.toNat < 0xd800 ∨ 0xdfff < c.toNat ∧ c.toNat < 0x110000 := c.valid
  simp only [isHighSurrogate, isLowSurrogate, Bool.and_eq_false_iff, decide_eq_false_iff_not]
  omega

/-- The code points of a text give the text back. -/
theorem textOfPoints_toNat (text : List Char) : textOfPoints (text.map Char.toNat) = some text := by
  induction text with
  | nil => rfl
  | cons c text ih =>
    obtain ⟨hhigh, hlow⟩ := not_surrogate c
    cases text with
    | nil => simp [textOfPoints, hhigh, hlow]
    | cons d text =>
      rw [List.map_cons, List.map_cons, textOfPoints, ← List.map_cons, ih]
      simp [hhigh, hlow]

/-! ## One line -/

/-- Line ends are written with letters. -/
theorem oneLine_escape (c : Char) : OneLine (escape c) := by
  unfold escape
  iterate 7 (split; · decide)
  split
  · have hdigits := (Hex.unbroken_digits 4 c.toNat).oneLine
    exact oneLine_cons.mpr ⟨by decide, oneLine_cons.mpr ⟨by decide, hdigits⟩⟩
  · next hnewline hreturn _ _ =>
    intro d hd
    rw [List.mem_singleton.mp hd]
    exact ⟨hnewline, hreturn⟩

/-- A quoted text stays on one line: what would break the line is escaped. -/
theorem oneLine_quote (text : List Char) : OneLine (quote text) := by
  have htext : OneLine (text.flatMap escape) := by
    intro d hd
    obtain ⟨c, -, hd⟩ := List.mem_flatMap.mp hd
    exact oneLine_escape c d hd
  rw [quote, List.cons_append, oneLine_cons, oneLine_append]
  exact ⟨by decide, htext, by decide⟩

end BeliefGraph.Json
