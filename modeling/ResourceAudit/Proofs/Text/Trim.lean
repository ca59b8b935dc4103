import ResourceAudit.Text.Blank
import ResourceAudit.Text.Lines
import Mathlib.Data.List.TakeWhile

/-!
# ResourceAudit.Proofs.Text.Trim

Trimming takes away white space and nothing else (`exists_trim`), and white
space around a text does not show in it (`trim_surround`).  A line ends in a
line feed, and what else ends with it is white space, so that lines agree with
pieces of text up to trimming (`trimmedLines_append`).
-/

namespace ResourceAudit.Text

theorem isBlankText_iff {s : List Char} : isBlankText s = true ↔ ∀ c ∈ s, isBlank c = true :=
  List.all_eq_true

@[simp] theorem isBlankText_append (s t : List Char) :
    isBlankText (s ++ t) = (isBlankText s && isBlankText t) := List.all_append

@[simp] theorem isBlankText_reverse (s : List Char) : isBlankText s.reverse = isBlankText s :=
  List.all_reverse

/-! ## trimming -/

theorem trimStart_append_of_blank {a : List Char} (ha : isBlankText a = true) (s : List Char) :
    trimStart (a ++ s) = trimStart s :=
  List.dropWhile_append_of_pos (isBlankText_iff.1 ha)

theorem trimStart_eq_nil {s : List Char} (hs : isBlankText s = true) : trimStart s = [] :=
  List.dropWhile_eq_nil_iff.2 (isBlankText_iff.1 hs)

/-- White space behind a text that is not blank stays where it is. -/
theorem trimStart_append {s : List Char} (hs : isBlankText s = false) (t : List Char) :
    trimStart (s ++ t) = trimStart s ++ t := by
  have hne : (trimStart s).isEmpty = false := by
    rw [List.isEmpty_eq_false_iff]
    intro hnil
    rw [isBlankText_iff.2 (List.dropWhile_eq_nil_iff.1 hnil)] at hs
    exact Bool.noConfusion hs
  rw [trimStart, List.dropWhile_append, ← trimStart, hne, if_neg Bool.false_ne_true]

theorem trimStart_eq_self {s : List Char} (h : ∀ c ∈ s, isBlank c = false) : trimStart s = s := by
  cases s with
  | nil => rfl
  | cons c rest => exact List.dropWhile_cons_of_neg (by simp [h c List.mem_cons_self])

theorem trimEnd_eq (s : List Char) : trimEnd s = (trimStart s.reverse).reverse := rfl

theorem trimEnd_append_of_blank {b : List Char} (hb : isBlankText b = true) (s : List Char) :
    trimEnd (s ++ b) = trimEnd s := by
  rw [trimEnd_eq, List.reverse_append, trimStart_append_of_blank (by rwa [isBlankText_reverse]),
    ← trimEnd_eq]

theorem trimEnd_append {s : List Char} (hs : isBlankText s = false) (a : List Char) :
    trimEnd (a ++ s) = a ++ trimEnd s := by
  rw [trimEnd_eq, List.reverse_append, trimStart_append (by rwa [isBlankText_reverse]),
    List.reverse_append, List.reverse_reverse, ← trimEnd_eq]

theorem trimEnd_eq_self {s : List Char} (h : ∀ c ∈ s, isBlank c = false) : trimEnd s = s := by
  rw [trimEnd_eq, trimStart_eq_self fun c hc => h c (List.mem_reverse.1 hc), List.reverse_reverse]

/-- A text whose first and last character are no white space is trimmed. -/
theorem trim_eq_self {c d : Char} (hc : isBlank c = false) (hd : isBlank d = false)
    (s : List Char) : trim (c :: s ++ [d]) = c :: s ++ [d] := by
  have hstart : trimStart (c :: s ++ [d]) = c :: s ++ [d] :=
    List.dropWhile_cons_of_neg (by simp [hc])
  have hlast : isBlankText [d] = false := by simp [isBlankText, hd]
  rw [trim, hstart, trimEnd_append hlast, trimEnd_eq_self (by simpa using hd)]

theorem trim_eq_nil {s : List Char} (hs : isBlankText s = true) : trim s = [] := by
  rw [trim, trimStart_eq_nil hs]
  rfl

/-- White space around a text does not show when it is trimmed. -/
theorem trim_surround {a b : List Char} (ha : isBlankText a = true) (hb : isBlankText b = true)
    (s : List Char) : trim (a ++ s ++ b) = trim s := by
  cases hs : isBlankText s with
  | true =>
    have hall : isBlankText (a ++ s ++ b) = true := by simp [ha, hs, hb]
    rw [trim_eq_nil hs, trim_eq_nil hall]
  | false =>
    rw [trim, List.append_assoc, trimStart_append_of_blank ha, trimStart_append hs,
      trimEnd_append_of_blank hb, ← trim]

theorem exists_trimStart (s : List Char) :
    ∃ a, isBlankText a = true ∧ s = a ++ trimStart s :=
  ⟨s.takeWhile isBlank, isBlankText_iff.2 fun _ hc => List.mem_takeWhile_imp hc,
    List.takeWhile_append_dropWhile.symm⟩

theorem exists_trimEnd (s : List Char) : ∃ b, isBlankText b = true ∧ s = trimEnd s ++ b := by
  obtain ⟨a, ha, hs⟩ := exists_trimStart s.reverse
  refine ⟨a.reverse, by rwa [isBlankText_reverse], ?_⟩
  rw [trimEnd_eq, ← List.reverse_append, ← hs, List.reverse_reverse]

/-- A trimmed text lost white space at its ends and nothing else. -/
theorem exists_trim (s : List Char) :
    ∃ a b, isBlankText a = true ∧ isBlankText b = true ∧ s = a ++ trim s ++ b := by
  obtain ⟨a, ha, hs⟩ := exists_trimStart s
  obtain ⟨b, hb, ht⟩ := exists_trimEnd (trimStart s)
  refine ⟨a, b, ha, hb, ?_⟩
  rw [List.append_assoc, trim, ← ht, ← hs]

@[simp] theorem trim_trim (s : List Char) : trim (trim s) = trim s := by
  obtain ⟨a, b, ha, hb, hs⟩ := exists_trim s
  conv => rhs; rw [hs]
  exact (trim_surround ha hb (trim s)).symm

theorem mem_of_mem_trim {s : List Char} {c : Char} (h : c ∈ trim s) : c ∈ s := by
  obtain ⟨a, b, -, -, hs⟩ := exists_trim s
  rw [hs]
  exact List.mem_append_left b (List.mem_append_right a h)

@[simp] theorem isBlankText_trim (s : List Char) : isBlankText (trim s) = isBlankText s := by
  obtain ⟨a, b, ha, hb, hs⟩ := exists_trim s
  conv => rhs; rw [hs]
  simp [ha, hb]

theorem trim_eq_nil_iff {s : List Char} : trim s = [] ↔ isBlankText s = true := by
  constructor
  · intro h
    rw [← isBlankText_trim, h]
    rfl
  · exact trim_eq_nil

/-! ## squeezing -/

theorem squeeze_append (s t : List Char) : squeeze (s ++ t) = squeeze s ++ squeeze t := by
  simp [squeeze]

theorem squeeze_eq_nil {s : List Char} (h : isBlankText s = true) : squeeze s = [] := by
  simpa [squeeze, List.filter_eq_nil_iff] using isBlankText_iff.1 h

@[simp] theorem squeeze_trim (s : List Char) : squeeze (trim s) = squeeze s := by
  obtain ⟨a, b, ha, hb, hs⟩ := exists_trim s
  conv => rhs; rw [hs]
  rw [squeeze_append, squeeze_append, squeeze_eq_nil ha, squeeze_eq_nil hb, List.nil_append,
    List.append_nil]

/-! ## lines -/

/-- The lines of a text that are not blank, trimmed. -/
def trimmedLines (s : List Char) : List (List Char) := ((lines s).map trim).filter (!·.isEmpty)

/-- A character that ends no line goes to the front of the line that follows. -/
theorem lines_cons {c : Char} {rest : List Char} (hc : c ≠ '\n')
    (hr : ∀ t, c = '\r' → rest ≠ '\n' :: t) :
    lines (c :: rest) =
      match lines rest with
      | [] => [[c]]
      | line :: others => (c :: line) :: others := by
  rw [lines.eq_def]
  grind

theorem lines_of_not_mem {s : List Char} (h : '\n' ∉ s) : lines s = if s = [] then [] else [s] := by
  induction s with
  | nil => rfl
  | cons c rest ih =>
    simp only [List.mem_cons, not_or] at h
    have hr : ∀ t, c = '\r' → rest ≠ '\n' :: t := by
      rintro t - rfl
      exact h.2 List.mem_cons_self
    rw [lines_cons (Ne.symm h.1) hr, ih h.2, if_neg (List.cons_ne_nil c rest)]
    split <;> grind

/-- A line feed ends a line, which loses nothing but white space by that. -/
theorem exists_lines_append {s : List Char} (h : '\n' ∉ s) (t : List Char) :
    ∃ line b, isBlankText b = true ∧ s = line ++ b ∧ lines (s ++ '\n' :: t) = line :: lines t := by
  induction s with
  | nil => exact ⟨[], [], rfl, rfl, lines.eq_2 t⟩
  | cons c rest ih =>
    simp only [List.mem_cons, not_or] at h
    by_cases hr : c = '\r' ∧ rest = []
    · obtain ⟨rfl, rfl⟩ := hr
      exact ⟨[], ['\r'], rfl, rfl, lines.eq_3 t⟩
    · obtain ⟨line, b, hb, hs, hl⟩ := ih h.2
      refine ⟨c :: line, b, hb, by rw [hs, List.cons_append], ?_⟩
      have hnext : ∀ u, c = '\r' → rest ++ '\n' :: t ≠ '\n' :: u := by
        rintro u rfl hu
        cases rest with
        | nil => exact hr ⟨rfl, rfl⟩
        | cons d ds =>
          rw [List.cons_append, List.cons.injEq] at hu
          exact h.2 (hu.1 ▸ List.mem_cons_self)
      rw [List.cons_append, lines_cons (Ne.symm h.1) hnext, hl]

/-- A text without line feeds gives its trimmed form unless it is blank. -/
theorem trimmedLines_of_not_mem {s : List Char} (h : '\n' ∉ s) :
    trimmedLines s = [trim s].filter (!·.isEmpty) := by
  rw [trimmedLines, lines_of_not_mem h]
  split
  · next hs => rw [hs]; rfl
  · rfl

theorem trimmedLines_append {s : List Char} (h : '\n' ∉ s) (t : List Char) :
    trimmedLines (s ++ '\n' :: t) = [trim s].filter (!·.isEmpty) ++ trimmedLines t := by
  obtain ⟨line, b, hb, rfl, hl⟩ := exists_lines_append h t
  have htrim : trim (line ++ b) = trim line := by
    simpa using trim_surround (a := []) rfl hb line
  rw [trimmedLines, hl, htrim, trimmedLines, ← List.filter_append]
  rfl

end ResourceAudit.Text
