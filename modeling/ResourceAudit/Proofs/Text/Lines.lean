import ResourceAudit.Proofs.Text.Trim

/-!
# ResourceAudit.Proofs.Text.Lines

A text as a list of lines, each with the end it is given.  The lines of a text
that is cut behind a line feed are those of its two parts (`lines_lineFeed`), and
each line is found in the text as it stands there (`sublist_of_mem_lines`).
-/

namespace ResourceAudit.Text

/-- What ends a line. -/
inductive LineEnd where
  | lineFeed
  | carriageReturn
  deriving DecidableEq, Repr

/-- The characters of an end of a line. -/
def LineEnd.chars : LineEnd → List Char
  | .lineFeed => ['\n']
  | .carriageReturn => ['\r', '\n']

theorem lines_ne_nil {s : List Char} (h : s ≠ []) : lines s ≠ [] := by
  fun_cases lines s with
  | case1 => exact absurd rfl h
  | _ => exact List.cons_ne_nil _ _

/-- The lines up to a line feed do not depend on what is behind it. -/
theorem lines_lineFeed (s t : List Char) :
    lines (s ++ '\n' :: t) = lines (s ++ ['\n']) ++ lines t := by
  fun_induction lines s with
  | case1 => rfl
  | case2 rest ih => rw [List.cons_append, List.cons_append, lines, lines, ih, List.cons_append]
  | case3 rest ih =>
    simp only [List.cons_append]
    rw [lines, lines, ih, List.cons_append]
  | case4 c rest hfeed hreturn hnil ih | case5 c rest hfeed hreturn line others hcons ih =>
    by_cases hend : c = '\r' ∧ rest = []
    · obtain ⟨rfl, rfl⟩ := hend
      rfl
    · have hnext : ∀ u v, c = '\r' → rest ++ '\n' :: v ≠ '\n' :: u := by
        rintro u v rfl hu
        cases rest with
        | nil => exact hend ⟨rfl, rfl⟩
        | cons d ds => exact hreturn ds rfl (by rw [(List.cons.inj hu).1])
      rw [List.cons_append, List.cons_append, lines_cons hfeed (hnext · t), ih,
        lines_cons hfeed (hnext · [])]
      have hne : lines (rest ++ ['\n']) ≠ [] := lines_ne_nil (by simp)
      obtain ⟨first, more, hmore⟩ := List.exists_cons_of_ne_nil hne
      rw [hmore]
      rfl

/-- Pieces that end in a line feed each have their own lines. -/
theorem lines_flatMap_lineFeed {α : Type} (f : α → List Char) (xs : List α) (t : List Char) :
    lines (xs.flatMap (fun x => f x ++ ['\n']) ++ t) =
      xs.flatMap (fun x => lines (f x ++ ['\n'])) ++ lines t := by
  induction xs with
  | nil => rfl
  | cons x rest ih =>
    rw [List.flatMap_cons, List.append_assoc, List.append_assoc, List.singleton_append,
      lines_lineFeed, ih, List.flatMap_cons, List.append_assoc]

/-- A line stands in the text, but for what is left out of the text. -/
theorem sublist_of_mem_lines {s line : List Char} (h : line ∈ lines s) : line.Sublist s := by
  fun_induction lines s generalizing line with
  | case1 => cases h
  | case2 rest ih =>
    rcases List.mem_cons.1 h with rfl | h
    · exact List.nil_sublist _
    · exact (ih h).cons _
  | case3 rest ih =>
    rcases List.mem_cons.1 h with rfl | h
    · exact List.nil_sublist _
    · exact ((ih h).cons _).cons _
  | case4 c rest _ _ hnil ih =>
    rw [List.mem_singleton.1 h]
    exact List.singleton_sublist.2 List.mem_cons_self
  | case5 c rest _ _ first others hcons ih =>
    rw [hcons] at ih
    rcases List.mem_cons.1 h with rfl | h
    · exact (ih List.mem_cons_self).cons_cons c
    · exact (ih (List.mem_cons_of_mem _ h)).cons c

/-- A carriage return and a line feed are no part of the line before them. -/
theorem lines_carriageReturn {s : List Char} (h : '\n' ∉ s) (t : List Char) :
    lines (s ++ '\r' :: '\n' :: t) = s :: lines t := by
  induction s with
  | nil => exact lines.eq_3 t
  | cons c rest ih =>
    rw [List.mem_cons, not_or] at h
    have hnext : ∀ u, c = '\r' → rest ++ '\r' :: '\n' :: t ≠ '\n' :: u := by
      rintro u - hu
      cases rest with
      | nil => exact absurd (List.cons.inj hu).1 (by decide)
      | cons d ds => exact h.2 ((List.cons.inj hu).1 ▸ List.mem_cons_self)
    rw [List.cons_append, lines_cons (Ne.symm h.1) hnext, ih h.2]

/-- A text with an end behind it is a line, which loses nothing but white space. -/
theorem exists_lines_lineEnd {s : List Char} (h : '\n' ∉ s) (e : LineEnd) (t : List Char) :
    ∃ line b, isBlankText b = true ∧ s = line ++ b ∧ lines (s ++ e.chars ++ t) = line :: lines t := by
  cases e with
  | lineFeed =>
    rw [LineEnd.chars, List.append_assoc, List.singleton_append]
    exact exists_lines_append h t
  | carriageReturn =>
    refine ⟨s, [], rfl, (List.append_nil s).symm, ?_⟩
    rw [LineEnd.chars, List.append_assoc]
    exact lines_carriageReturn h t

end ResourceAudit.Text
