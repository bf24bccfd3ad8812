import BeliefGraph.Proofs.Json.Text
import BeliefGraph.Proofs.Numeric.Single
import BeliefGraph.Proofs.Snapshot.Timestamp
import BeliefGraph.Snapshot.Reader
import BeliefGraph.Snapshot.Writer

/-!
# Fields of a snapshot read back

Every field but the label is written as a word, and the reader of the field gives the value back. The
label is written as a quoted text or `null`, which may hold blanks but no line end.
-/

namespace BeliefGraph

/-! ## Fields are words -/

/-- The digits of a number are a word. -/
theorem isWord_toDigits (n : Nat) : IsWord (Nat.toDigits 10 n) :=
  ⟨Nat.toDigits_ne_nil, unbroken_of_digits fun _ => isDigit_of_mem_toDigits⟩

/-- A decimal number is written without blanks. -/
theorem Decimal.unbroken_positional (d : Decimal) : Unbroken d.positional := by
  have hzeros : ∀ count, Unbroken (List.replicate count '0' ++ Nat.toDigits 10 d.digits) :=
    fun count => unbroken_of_digits fun _ => isDigit_of_mem_zeros
  rw [positional]
  split
  · exact unbroken_append.mpr ⟨(isWord_toDigits _).2, (unbroken_append.mp (hzeros _)).1⟩
  · next e _ =>
    -- the digits are padded on the left until one stands in front of the point
    have hpadded := hzeros (e + 1 + 1 - (Nat.toDigits 10 d.digits).length)
    unfold withPoint
    refine unbroken_append.mpr ⟨fun c hc => hpadded c (List.mem_of_mem_take hc), ?_⟩
    exact unbroken_cons.mpr ⟨by decide, fun c hc => hpadded c (List.mem_of_mem_drop hc)⟩

namespace Single

/-- A single-precision number is written without blanks. -/
theorem unbroken_chars (x : Float32) : Unbroken (chars x) := by
  unfold chars written
  split
  · decide
  · have htext : Unbroken (if magnitude x = Format.single.infinite then "inf".toList
        else (shortest (magnitude x)).positional) := by
      split
      · decide
      · exact Decimal.unbroken_positional _
    simp only
    split
    · exact unbroken_cons.mpr ⟨by decide, htext⟩
    · exact htext

/-- The text of a single-precision number is a word: it is not empty either. -/
theorem isWord_chars (x : Float32) : IsWord (chars x) := by
  refine ⟨fun hnil => ?_, unbroken_chars x⟩
  have := read_chars x
  rw [hnil] at this
  simp [read] at this

end Single

namespace SpaceId

/-- The digits in groups. -/
theorem readGrouped_groups {a b c d e : List Char} (ha : a.length = 8) (hb : b.length = 4)
    (hc : c.length = 4) (hd : d.length = 4) (he : e.length = 12) :
    readGrouped (a ++ '-' :: b ++ '-' :: c ++ '-' :: d ++ '-' :: e)
      = readPlain (a ++ b ++ c ++ d ++ e) := by
  simp [readGrouped, hyphens, List.drop_append, List.getElem?_append, List.drop_eq_nil_of_le, ha, hb, hc, hd, he]

/-- The id of a space is written with 36 characters. -/
theorem length_chars (id : SpaceId) : id.chars.length = 36 := by
  simp [chars, Hex.length_digits]

/-- The 32 digits of an id of a space are read as that id. -/
theorem readPlain_digits (id : SpaceId) : readPlain (Hex.digits 32 id.toNat) = some id := by
  have hlt : id.toNat < Nat.pow 16 32 := id.isLt
  rw [readPlain, if_pos (Hex.length_digits _ _), Hex.read?_digits, Nat.mod_eq_of_lt hlt]
  simp

/-- The text of an id of a space is read as that id. -/
theorem read_chars (id : SpaceId) : read id.chars = some id := by
  have hlength := id.length_chars
  have hjoin : ∀ ds : List Char, ds.take 8 ++ (ds.drop 8).take 4 ++ (ds.drop 12).take 4 ++
      (ds.drop 16).take 4 ++ ds.drop 20 = ds := by
    intro ds
    rw [← List.take_add, ← List.take_add, ← List.take_add]
    exact List.take_append_drop 20 ds
  rw [read, if_neg (by omega), if_neg (by omega), if_neg (by omega), chars]
  -- the five groups joined are the 32 digits that were cut
  rw [readGrouped_groups, hjoin, readPlain_digits]
  all_goals simp [Hex.length_digits]

/-- The text of an id of a space is a word. -/
theorem isWord_chars (id : SpaceId) : IsWord id.chars := by
  have hdigits := Hex.unbroken_digits 32 id.toNat
  have htake : ∀ {ds n}, Unbroken ds → Unbroken (ds.take n) := fun h c hc =>
    h c (List.mem_of_mem_take hc)
  have hdrop : ∀ {ds n}, Unbroken ds → Unbroken (ds.drop n) := fun h c hc =>
    h c (List.mem_of_mem_drop hc)
  have hhyphen : isBlank '-' = false := by decide
  constructor
  · simp [chars]
  · simp [chars, hhyphen, htake, hdrop, hdigits]

end SpaceId

/-- The name of a kind is a word. -/
theorem Kind.isWord_name (k : Kind) : IsWord k.name.toList := by
  cases k <;> decide

/-- A digest is a word. -/
theorem Blake3.isWord_digest (bytes : List UInt8) : IsWord (digest bytes) := by
  constructor
  · intro hnil
    have := length_digest bytes
    rw [hnil] at this
    simp at this
  · intro c hc
    rw [digest, List.mem_flatMap] at hc
    obtain ⟨w, -, hc⟩ := hc
    simp only [wordDigits, List.mem_append] at hc
    rcases hc with ((hc | hc) | hc) | hc <;> exact Hex.unbroken_digits _ _ c hc

namespace Snapshot

/-! ## Readers of fields -/

/-- The field of a number below the bound for words is read as that number. -/
theorem readWord_natField {n : Nat} (h : n < UInt64.size) : readWord (natField n) = .ok n := by
  rw [readWord, readNat, natField, Integer.readNat_toDigits h]
  rfl

/-- The field of a count is read as that count. -/
theorem readCount_natField (n : UInt64) : readCount (natField n.toNat) = .ok n := by
  rw [readCount, readWord_natField n.toNat_lt]
  show Except.ok (UInt64.ofNat n.toNat) = .ok n
  rw [UInt64.ofNat_toNat]

/-- The field of an integer in range is read as that integer. -/
theorem readInt_intField {half : Nat} {n : Int} (hlow : -(half : Int) ≤ n) (hhigh : n < half) :
    Integer.readInt half (intField n) = .ok n := by
  cases n with
  | ofNat n => exact Integer.readInt_toDigits (Int.ofNat_lt.mp hhigh)
  | negSucc n =>
    rw [intField, natField, Integer.readInt_minus (by omega)]
    rfl

/-- The field of an importance is read as that importance. -/
theorem readImportance_intField (n : Int32) : readImportance (intField n.toInt) = .ok n := by
  have hlow := n.le_toInt
  have hhigh := n.toInt_lt
  rw [readImportance, readInt_intField (by omega) (by omega)]
  show Except.ok (Int32.ofInt n.toInt) = .ok n
  rw [Int32.ofInt_toInt]

/-- The field of a single-precision number is read as that number. -/
theorem readSingle_chars (x : Float32) : readSingle (Single.chars x) = .ok x := by
  rw [readSingle, Single.read_chars]
  rfl

/-- The field of a kind is read as that kind. -/
theorem readKind_name (k : Kind) : readKind k.name.toList = .ok k := by
  rw [readKind]
  simp only [String.ofList_toList, Kind.ofName?_name]

/-- The field of a label, which may be absent, is read as that label. -/
theorem readLabel?_labelField (label : Option String) :
    readLabel? (labelField label) = some label := by
  cases label with
  | none => rfl
  | some label =>
    rw [labelField, readLabel?, Json.parse?_quote]
    simp [Json.nullable, Json.string?, Json.textOfPoints_toNat]

/-- The field of an integer is a word. -/
theorem isWord_intField (n : Int) : IsWord (intField n) := by
  cases n with
  | ofNat n => exact isWord_toDigits n
  | negSucc n =>
    exact ⟨List.cons_ne_nil _ _, unbroken_cons.mpr ⟨by decide, (isWord_toDigits (n + 1)).2⟩⟩

/-- The field of a label stays on one line. -/
theorem oneLine_labelField (label : Option String) : OneLine (labelField label) := by
  cases label with
  | none =>
    unfold labelField
    decide
  | some label => exact Json.oneLine_quote label.toList

end Snapshot

end BeliefGraph
