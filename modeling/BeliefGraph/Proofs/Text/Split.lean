import BeliefGraph.Text.Hex
import BeliefGraph.Text.Split

/-!
# Cutting text that was put together

Each way of cutting text undoes the way of putting it together that the library uses: words and pieces
behind a space, lines behind a newline, and the mark of a trailer that stands nowhere behind it.
-/

namespace BeliefGraph

/-! ## Words and lines -/

/-- A text that holds no blank. -/
def Unbroken (cs : List Char) : Prop := ∀ c ∈ cs, isBlank c = false

/-- A text that holds no blank and is not empty. -/
def IsWord (cs : List Char) : Prop := cs ≠ [] ∧ Unbroken cs

/-- A text that holds no line end. -/
def OneLine (cs : List Char) : Prop := ∀ c ∈ cs, c ≠ '\n' ∧ c ≠ '\x0d'

-- Each goes over the text; the condition for all characters would go over all characters there are.
instance (cs : List Char) : Decidable (Unbroken cs) :=
  decidable_of_iff (cs.all fun c => !isBlank c) (by simp [Unbroken])

instance (cs : List Char) : Decidable (IsWord cs) :=
  inferInstanceAs (Decidable (cs ≠ [] ∧ Unbroken cs))

instance (cs : List Char) : Decidable (OneLine cs) :=
  decidable_of_iff (cs.all fun c => c != '\n' && c != '\x0d') (by simp [OneLine])

/-- The empty text holds no blank. -/
@[simp]
theorem unbroken_nil : Unbroken [] := by
  simp [Unbroken]

/-- A text holds no blank if neither its first character nor the rest does. -/
@[simp]
theorem unbroken_cons {c : Char} {cs : List Char} :
    Unbroken (c :: cs) ↔ isBlank c = false ∧ Unbroken cs :=
  List.forall_mem_cons

/-- Two texts hold no blank together if neither holds one. -/
@[simp]
theorem unbroken_append {cs ds : List Char} : Unbroken (cs ++ ds) ↔ Unbroken cs ∧ Unbroken ds :=
  List.forall_mem_append

/-- A digit is not blank. -/
theorem isBlank_of_isDigit {c : Char} (h : c.isDigit = true) : isBlank c = false := by
  simp only [Char.isDigit, Bool.and_eq_true, decide_eq_true_eq, UInt32.le_iff_toNat_le] at h
  have h₁ : 48 ≤ c.toNat := h.1
  have h₂ : c.toNat ≤ 57 := h.2
  simp only [isBlank]
  grind

/-- A text of digits holds no blank. -/
theorem unbroken_of_digits {ds : List Char} (h : ∀ c ∈ ds, c.isDigit = true) : Unbroken ds :=
  fun c hc => isBlank_of_isDigit (h c hc)

/-- Hexadecimal digits hold no blank. -/
theorem Hex.unbroken_digits (count n : Nat) : Unbroken (Hex.digits count n) := by
  have hdigit : ∀ d : Fin 16, isBlank (Nat.digitChar d.val) = false := by decide
  induction count generalizing n with
  | zero => exact unbroken_nil
  | succ count ih =>
    rw [digits, unbroken_append]
    exact ⟨ih _, unbroken_cons.mpr ⟨hdigit ⟨n % 16, Nat.mod_lt _ (by decide)⟩, unbroken_nil⟩⟩

/-- No space is in a word. -/
theorem IsWord.no_space {cs : List Char} (h : IsWord cs) : ∀ c ∈ cs, c ≠ ' ' := by
  rintro c hc rfl
  exact absurd (h.2 _ hc) (by decide)

/-- A text is on one line if its first character ends no line and the rest is on one. -/
@[simp]
theorem oneLine_cons {c : Char} {cs : List Char} :
    OneLine (c :: cs) ↔ (c ≠ '\n' ∧ c ≠ '\x0d') ∧ OneLine cs :=
  List.forall_mem_cons

/-- Two texts stand on one line if each does. -/
@[simp]
theorem oneLine_append {cs ds : List Char} : OneLine (cs ++ ds) ↔ OneLine cs ∧ OneLine ds :=
  List.forall_mem_append

/-- A text without blanks does not leave its line. -/
theorem Unbroken.oneLine {cs : List Char} (h : Unbroken cs) : OneLine cs := by
  intro c hc
  have hblank := h c hc
  constructor <;> rintro rfl <;> exact absurd hblank (by decide)

/-- No line break is in a line. -/
theorem OneLine.no_newline {cs : List Char} (h : OneLine cs) : ∀ c ∈ cs, c ≠ '\n' :=
  fun c hc => (h c hc).1

/-! ## Words -/

/-- A blank at the front of a text belongs to no word. -/
theorem words_cons_blank {c : Char} (hc : isBlank c = true) (cs : List Char) :
    words (c :: cs) = words cs := by
  cases cs with
  | nil => simp [words, hc]
  | cons d cs => simp [words, hc]

/-- A word up to a blank is the first word of a text. -/
theorem words_append_blank {cs : List Char} (h : IsWord cs) {c : Char} (hc : isBlank c = true)
    (rest : List Char) : words (cs ++ c :: rest) = cs :: words rest := by
  obtain ⟨hne, hword⟩ := h
  induction cs with
  | nil => exact absurd rfl hne
  | cons d cs ih =>
    have hd : isBlank d = false := hword d List.mem_cons_self
    -- A word ends where the next character is blank, so the last character is a case of its own.
    cases cs with
    | nil =>
      show words (d :: c :: rest) = [d] :: words rest
      simp [words, hd, hc, words_cons_blank hc rest]
    | cons e cs =>
      have ih := ih (List.cons_ne_nil e cs) fun x hx => hword x (List.mem_cons_of_mem d hx)
      have he : isBlank e = false := hword e (by simp)
      show words (d :: e :: (cs ++ c :: rest)) = (d :: e :: cs) :: words rest
      rw [words, if_neg (by simp [hd]), if_neg (by simp [he])]
      show extendFirst d (words (e :: cs ++ c :: rest)) = (d :: e :: cs) :: words rest
      rw [ih]
      rfl

/-- A word has itself for its words. -/
theorem words_word {cs : List Char} (h : IsWord cs) : words cs = [cs] := by
  obtain ⟨hne, hword⟩ := h
  induction cs with
  | nil => exact absurd rfl hne
  | cons d cs ih =>
    have hd : isBlank d = false := hword d List.mem_cons_self
    cases cs with
    | nil => simp [words, hd]
    | cons e cs =>
      have ih := ih (List.cons_ne_nil e cs) fun x hx => hword x (List.mem_cons_of_mem d hx)
      have he : isBlank e = false := hword e (by simp)
      rw [words, if_neg (by simp [hd]), if_neg (by simp [he]), ih]
      rfl

/-- Nothing is trimmed from a word. -/
theorem trimBlanks_word {cs : List Char} (h : IsWord cs) : trimBlanks cs = cs := by
  have hdrop : ∀ {ds : List Char}, (∀ c ∈ ds, isBlank c = false) → ds.dropWhile isBlank = ds := by
    intro ds hds
    cases ds with
    | nil => rfl
    | cons d ds => simp [hds d List.mem_cons_self]
  rw [trimBlanks, hdrop h.2, hdrop fun c hc => h.2 c (List.mem_reverse.mp hc), List.reverse_reverse]

/-! ## Pieces -/

/-- The first piece of a text goes up to the first space. -/
theorem firstPiece_append {cs : List Char} (h : ∀ c ∈ cs, c ≠ ' ') (rest : List Char) :
    firstPiece (cs ++ ' ' :: rest) = cs := by
  rw [firstPiece, List.takeWhile_append_of_pos fun c hc => bne_iff_ne.mpr (h c hc)]
  simp

/-- What follows the first space is the rest. -/
theorem afterSpace?_append {cs : List Char} (h : ∀ c ∈ cs, c ≠ ' ') (rest : List Char) :
    afterSpace? (cs ++ ' ' :: rest) = some rest := by
  rw [afterSpace?, List.dropWhile_append_of_pos fun c hc => bne_iff_ne.mpr (h c hc)]
  simp

/-- Of several pieces the first goes up to the first space, and the rest is cut into one fewer. -/
theorem pieces_append {cs : List Char} (h : ∀ c ∈ cs, c ≠ ' ') (count : Nat) (rest : List Char) :
    pieces (count + 2) (cs ++ ' ' :: rest) = cs :: pieces (count + 1) rest := by
  rw [pieces, afterSpace?_append h]
  simp only
  rw [firstPiece_append h]

/-! ## Lines -/

/-- A line up to its break is the first line of a text. -/
theorem lines_append {cs : List Char} (h : OneLine cs) (rest : List Char) :
    lines (cs ++ '\n' :: rest) = cs :: lines rest := by
  induction cs with
  | nil => rw [List.nil_append, lines]
  | cons c cs ih =>
    obtain ⟨hnewline, hreturn⟩ := h c List.mem_cons_self
    have ih := ih fun d hd => h d (List.mem_cons_of_mem c hd)
    rw [List.cons_append, lines, ih]
    · rfl
    · rintro rest' rfl
      exact absurd rfl hreturn
    · exact hnewline

/-- A text that is not empty has a line. -/
theorem lines_ne_nil {cs : List Char} (h : cs ≠ []) : lines cs ≠ [] := by
  induction cs using lines.induct with
  | case1 => exact absurd rfl h
  | case2 cs => simp [lines]
  | case3 cs => simp [lines]
  | case4 c cs hreturn hnewline =>
    rw [lines]
    · cases lines cs <;> simp [extendFirst]
    · exact hreturn
    · exact hnewline

/-! ## Marks -/

/-- A text that is split is its front, the mark and what is behind it. -/
theorem eq_of_splitAtLast? {mark cs front behind : List Char}
    (h : splitAtLast? mark cs = some (front, behind)) : cs = front ++ mark ++ behind := by
  induction cs generalizing front with
  | nil => cases h
  | cons c cs ih =>
    rw [splitAtLast?] at h
    split at h
    · next heq =>
      cases h
      rw [ih heq]
      rfl
    · split at h
      · next hmarked =>
        cases h
        obtain ⟨rest, hrest⟩ := List.isPrefixOf_iff_prefix.mp hmarked
        rw [← hrest, List.drop_left, List.nil_append]
      · cases h

/-- Where a mark stands in a text, it is found there or further behind. -/
theorem exists_splitAtLast? {mark : List Char} (hmark : mark ≠ []) (front behind : List Char) :
    ∃ last rest, splitAtLast? mark (front ++ mark ++ behind) = some (last, rest) ∧
      front.length ≤ last.length := by
  induction front with
  | nil =>
    obtain ⟨c, cs, rfl⟩ := List.exists_cons_of_ne_nil hmark
    rw [List.nil_append, List.cons_append, splitAtLast?]
    split
    · next found rest _ => exact ⟨c :: found, rest, rfl, Nat.zero_le _⟩
    · have hmarked : (c :: cs).isPrefixOf (c :: (cs ++ behind)) = true :=
        List.isPrefixOf_iff_prefix.mpr ⟨behind, rfl⟩
      rw [if_pos hmarked]
      exact ⟨[], _, rfl, Nat.le_refl 0⟩
  | cons c front ih =>
    obtain ⟨last, rest, hlast, hle⟩ := ih
    rw [List.cons_append, List.cons_append, splitAtLast?, hlast]
    exact ⟨c :: last, rest, rfl, Nat.succ_le_succ hle⟩

/-- A text is cut at the last place at which the mark stands. -/
theorem splitAtLast?_eq_some_iff {mark cs front behind : List Char} (hmark : mark ≠ []) :
    splitAtLast? mark cs = some (front, behind) ↔ cs = front ++ mark ++ behind ∧
      ∀ front' behind', cs = front' ++ mark ++ behind' → front'.length ≤ front.length := by
  constructor
  · intro h
    refine ⟨eq_of_splitAtLast? h, ?_⟩
    rintro front' behind' rfl
    obtain ⟨last, rest, hlast, hle⟩ := exists_splitAtLast? hmark front' behind'
    rw [h] at hlast
    cases hlast
    exact hle
  · rintro ⟨rfl, hlast⟩
    obtain ⟨last, rest, hfound, hle⟩ := exists_splitAtLast? hmark front behind
    -- a split that is found lies as far behind as any: the two fronts are equally long
    have heq := eq_of_splitAtLast? hfound
    have hlength := Nat.le_antisymm hle (hlast last rest heq)
    rw [List.append_assoc, List.append_assoc] at heq
    obtain ⟨rfl, hbehind⟩ := List.append_inj heq hlength
    obtain rfl := List.append_cancel_left hbehind
    exact hfound

/-- A mark that starts with a newline does not stand on one line. -/
theorem splitAtLast?_eq_none {mark cs : List Char} (h : OneLine cs) :
    splitAtLast? ('\n' :: mark) cs = none := by
  induction cs with
  | nil => rfl
  | cons c cs ih =>
    have hc : ('\n' == c) = false := by
      simpa using (h.no_newline c List.mem_cons_self).symm
    rw [splitAtLast?, ih fun d hd => h d (List.mem_cons_of_mem c hd)]
    simp [List.isPrefixOf, hc]

/-- A text is cut at a mark if no line ends behind it. -/
theorem splitAtLast?_append {mark behind : List Char} (hmark : OneLine mark)
    (hbehind : OneLine behind) (front : List Char) :
    splitAtLast? ('\n' :: mark) (front ++ '\n' :: (mark ++ behind)) = some (front, behind) := by
  induction front with
  | nil =>
    -- No line ends behind the mark, so the mark does not start again.
    have hnone : splitAtLast? ('\n' :: mark) (mark ++ behind) = none :=
      splitAtLast?_eq_none (oneLine_append.mpr ⟨hmark, hbehind⟩)
    have hmarked : ('\n' :: mark).isPrefixOf ('\n' :: (mark ++ behind)) = true := by
      rw [List.isPrefixOf_iff_prefix]
      exact ⟨behind, rfl⟩
    rw [List.nil_append, splitAtLast?, hnone]
    simp only [hmarked, if_true]
    simp
  | cons c front ih =>
    rw [List.cons_append, splitAtLast?, ih]

end BeliefGraph
