import ResourceAudit.Proofs.Documentation.Outdent
import Mathlib.Data.List.Forall2

/-!
# ResourceAudit.Proofs.Documentation.Indentation

The lines of documentation in the markup of a member.  Each of them has one line
there, which says the same (`saysSame_bodyLines`), whatever white space it begins
with: the shared indentation is counted in bytes, and where it would end inside
a character, all white space is taken off instead.  Where the white space in
front is of single bytes, the lines are moved to the left by the same number of
characters, as far as the one that is indented least (`isMovedBy_bodyLines`).
-/

namespace ResourceAudit.Documentation

open ResourceAudit.Text

/-- The white space a line begins with. -/
def leading (line : List Char) : List Char := line.takeWhile isBlank

/-- The white space in front of the lines of markup for documentation. -/
def bodyIndent : List Char := "    ".toList

/-- The lines of markup for lines of documentation. -/
def bodyLines (lines : List (List Char)) : List (List Char) :=
  lines.map fun line => bodyIndent ++ outdent (sharedIndentation lines) line

/-- Being a line that differs from another one in the white space at its ends
only. -/
structure SaysSame (line out : List Char) : Prop where
  lineFeed_not_mem : '\n' ∉ out
  trim_eq : trim out = trim line
  squeeze_eq : squeeze out = squeeze line

/-- Being lines of markup for lines that have been moved to the left by so many
characters, as far as the one that is indented least of those that are not blank. -/
structure IsMovedBy (margin : Nat) (lines body : List (List Char)) : Prop where
  le_leading : ∀ line ∈ lines, isBlankText line = false → margin ≤ (leading line).length
  exists_least : (∃ line ∈ lines, isBlankText line = false) →
    ∃ line ∈ lines, isBlankText line = false ∧ (leading line).length = margin
  moved : List.Forall₂ (fun line out => isBlankText line = false →
    out = bodyIndent ++ (leading line).drop margin ++ trim line) lines body

/-! ## one line -/

theorem leading_append (line : List Char) : leading line ++ trimStart line = line :=
  List.takeWhile_append_dropWhile

theorem isBlankText_leading (line : List Char) : isBlankText (leading line) = true :=
  isBlankText_iff.2 fun _ hc => List.mem_takeWhile_imp hc

theorem isBlankText_trimStart {line : List Char} (h : isBlankText line = false) :
    isBlankText (trimStart line) = false := by
  rwa [← leading_append line, isBlankText_append, isBlankText_leading, Bool.true_and] at h

/-- A line in the markup says what it says in the documentation, if no more than
its indentation is taken off it. -/
theorem saysSame_outdent {n : Nat} {line : List Char} (hfeed : '\n' ∉ line)
    (h : isBlankText line = false → n ≤ indentation line) :
    SaysSame line (bodyIndent ++ outdent n line) := by
  have hindent : isBlankText bodyIndent = true := by decide
  have htrim : trim (bodyIndent ++ outdent n line) = trim line := by
    have hsurround := trim_surround hindent rfl (b := []) (outdent n line)
    rw [List.append_nil] at hsurround
    rw [hsurround, trim_outdent h]
  constructor
  case lineFeed_not_mem =>
    rw [List.mem_append, not_or]
    exact ⟨by decide, fun hmem => hfeed ((outdent_isInfix n line).subset hmem)⟩
  case trim_eq => exact htrim
  case squeeze_eq => rw [← squeeze_trim, htrim, squeeze_trim]

/-! ## white space of single bytes -/

theorem byteLength_eq_length {s : List Char} (h : ∀ c ∈ s, c.utf8Size = 1) :
    byteLength s = s.length := by
  induction s with
  | nil => rfl
  | cons c s ih =>
    rw [List.forall_mem_cons] at h
    rw [byteLength, h.1, ih h.2, List.length_cons, Nat.add_comm]

theorem indentation_eq_length {line : List Char} (h : ∀ c ∈ leading line, c.utf8Size = 1) :
    indentation line = (leading line).length := by
  rw [indentation_eq (leading_append line).symm, byteLength_eq_length h]

/-- Where characters have one byte each, bytes are dropped as characters. -/
theorem dropBytes_append {n : Nat} {a : List Char} (h : ∀ c ∈ a, c.utf8Size = 1)
    (hn : n ≤ a.length) (s : List Char) : dropBytes n (a ++ s) = some (a.drop n ++ s) := by
  induction a generalizing n with
  | nil =>
    obtain rfl : n = 0 := Nat.le_zero.1 hn
    cases s <;> rfl
  | cons c a ih =>
    rw [List.forall_mem_cons] at h
    cases n with
    | zero => rfl
    | succ n =>
      have hstep : dropBytes (n + 1) (c :: (a ++ s)) = dropBytes n (a ++ s) := by
        simp [dropBytes, h.1]
      rw [List.cons_append, hstep, ih h.2 (Nat.le_of_succ_le_succ hn), List.drop_succ_cons]

theorem outdent_eq_append {n : Nat} {line : List Char} (hline : isBlankText line = false)
    (h : ∀ c ∈ leading line, c.utf8Size = 1) (hn : n ≤ (leading line).length) :
    outdent n line = (leading line).drop n ++ trim line := by
  have hdrop := dropBytes_append h hn (trimStart line)
  rw [leading_append] at hdrop
  rw [outdent, hdrop, Option.getD_some, trimEnd_append (isBlankText_trimStart hline), trim]

/-! ## all lines -/

theorem saysSame_bodyLines {lines : List (List Char)} (h : ∀ line ∈ lines, '\n' ∉ line) :
    List.Forall₂ SaysSame lines (bodyLines lines) := by
  rw [bodyLines, List.forall₂_map_right_iff, List.forall₂_same]
  exact fun line hline => saysSame_outdent (h line hline) (sharedIndentation_le hline)

/-- Some line is indented by no more than what all lines share. -/
theorem exists_indentation_eq {lines : List (List Char)}
    (h : ∃ line ∈ lines, isBlankText line = false) :
    ∃ line ∈ lines, isBlankText line = false ∧ indentation line = sharedIndentation lines := by
  obtain ⟨line, hmem, hline⟩ := h
  have hne : ((lines.filter (!isBlankText ·)).map indentation) ≠ [] := by
    have hfilter : line ∈ lines.filter (!isBlankText ·) := List.mem_filter.2 ⟨hmem, by simp [hline]⟩
    exact List.ne_nil_of_mem (List.mem_map_of_mem hfilter)
  obtain ⟨least, hmin⟩ := Option.ne_none_iff_exists'.1 (mt List.min?_eq_none_iff.1 hne)
  obtain ⟨found, hfound, hleast⟩ := List.mem_map.1 (List.min?_mem hmin)
  obtain ⟨hmem, hnot⟩ := List.mem_filter.1 hfound
  refine ⟨found, hmem, by simpa using hnot, ?_⟩
  rw [sharedIndentation, hmin, Option.getD_some, hleast]

theorem isMovedBy_bodyLines {lines : List (List Char)}
    (h : ∀ line ∈ lines, isBlankText line = false → ∀ c ∈ leading line, c.utf8Size = 1) :
    IsMovedBy (sharedIndentation lines) lines (bodyLines lines) := by
  have hle : ∀ line ∈ lines, isBlankText line = false →
      sharedIndentation lines ≤ (leading line).length := by
    intro line hmem hline
    rw [← indentation_eq_length (h line hmem hline)]
    exact sharedIndentation_le hmem hline
  constructor
  case le_leading => exact hle
  case exists_least =>
    intro hexists
    obtain ⟨line, hmem, hline, hleast⟩ := exists_indentation_eq hexists
    exact ⟨line, hmem, hline, indentation_eq_length (h line hmem hline) ▸ hleast⟩
  case moved =>
    rw [bodyLines, List.forall₂_map_right_iff, List.forall₂_same]
    intro line hmem hline
    rw [outdent_eq_append hline (h line hmem hline) (hle line hmem hline), List.append_assoc]

theorem markupOf_eq_flatMap (id : List Char) (lines : List (List Char)) :
    markupOf id lines = "<member name=\"".toList ++ Xml.escape id ++ "\">\n".toList
      ++ (bodyLines lines).flatMap (· ++ ['\n']) ++ "</member>\n".toList := by
  unfold markupOf bodyLines bodyIndent
  rw [List.flatMap_map]

/-- Documentation loses nothing but white space.  Between the first and the last
line of its markup there is one line for each of its lines, in order, that says the
same; no character is lost that is not white space.  If the white space in front of
the lines that are not blank is of single bytes, these keep their indentation to each
other, and the one that is indented least begins right behind the four spaces. -/
theorem markup_keeps_lines (id : String) {lines : List String} (hne : lines ≠ [])
    (hfeed : ∀ line ∈ lines, '\n' ∉ line.toList) :
    ∃ body : List (List Char),
      (markup id lines).toList = "<member name=\"".toList ++ Xml.escape id.toList ++ "\">\n".toList
        ++ body.flatMap (· ++ ['\n']) ++ "</member>\n".toList ∧
      List.Forall₂ SaysSame (lines.map String.toList) body ∧
      ((∀ line ∈ lines, isBlankText line.toList = false →
          ∀ c ∈ leading line.toList, c.utf8Size = 1) →
        ∃ margin, IsMovedBy margin (lines.map String.toList) body) := by
  refine ⟨bodyLines (lines.map String.toList), ?_, ?_, fun hsingle => ?_⟩
  · rw [markup, if_neg (by simpa using hne), String.toList_ofList, markupOf_eq_flatMap]
  · exact saysSame_bodyLines (List.forall_mem_map.2 hfeed)
  · exact ⟨_, isMovedBy_bodyLines (List.forall_mem_map.2 hsingle)⟩

/-- Documentation with a line of nothing but a wide space, which is wider than the
indentation of the other lines. -/
def greetingLines : List String :=
  [" <summary>", "   Hello &amp; welcome", "\u2003", " </summary>"]

theorem markup_keeps_lines_greetingLines :
    greetingLines ≠ [] ∧ (∀ line ∈ greetingLines, '\n' ∉ line.toList) ∧
      (∀ line ∈ greetingLines, isBlankText line.toList = false →
        ∀ c ∈ leading line.toList, c.utf8Size = 1) ∧
      ∃ body margin, List.Forall₂ SaysSame (greetingLines.map String.toList) body ∧
        IsMovedBy margin (greetingLines.map String.toList) body := by
  have hne : greetingLines ≠ [] := by decide
  have hfeed : ∀ line ∈ greetingLines, '\n' ∉ line.toList := by decide
  have hsingle : ∀ line ∈ greetingLines, isBlankText line.toList = false →
      ∀ c ∈ leading line.toList, c.utf8Size = 1 := by
    have hall : ∀ line ∈ greetingLines, (isBlankText line.toList ||
        (leading line.toList).all (·.utf8Size == 1)) = true := by decide
    intro line hline hnot
    simpa [hnot] using hall line hline
  obtain ⟨body, -, hsame, hmoved⟩ := markup_keeps_lines "T:Greeter" hne hfeed
  obtain ⟨margin, hmargin⟩ := hmoved hsingle
  exact ⟨hne, hfeed, hsingle, body, margin, hsame, hmargin⟩

end ResourceAudit.Documentation
