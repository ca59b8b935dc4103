import ResourceAudit.Documentation.Markup
import ResourceAudit.Proofs.Text.Trim

/-!
# ResourceAudit.Proofs.Documentation.Outdent

What a documentation line loses when it is moved to the left: white space at its
ends and nothing else.  The shared indentation is counted in bytes and taken off
in bytes; it ends inside the indentation of every line that is not blank
(`sharedIndentation_le`), so that no line loses what it says
(`trim_outdent`).
-/

namespace ResourceAudit.Documentation

open ResourceAudit.Text

/-! ## bytes -/

theorem byteLength_eq_zero_iff {s : List Char} : byteLength s = 0 ↔ s = [] := by
  cases s with
  | nil => simp [byteLength]
  | cons c rest =>
    have hpos := c.utf8Size_pos
    simp only [byteLength, reduceCtorEq, iff_false]
    omega

/-- Dropping bytes leaves what stands behind a text of so many bytes. -/
theorem exists_of_dropBytes {n : Nat} {s t : List Char} (h : dropBytes n s = some t) :
    ∃ front, s = front ++ t ∧ byteLength front = n := by
  fun_induction dropBytes n s with
  | case1 s =>
    rw [Option.some.injEq] at h
    exact ⟨[], h, rfl⟩
  | case2 n hn => simp at h
  | case3 n c rest hn hle ih =>
    obtain ⟨front, rfl, hfront⟩ := ih h
    refine ⟨c :: front, rfl, ?_⟩
    rw [byteLength, hfront]
    omega
  | case4 n c rest hn hle => simp at h

/-! ## indentation -/

/-- The indentation of a line is the size of the white space it begins with. -/
theorem indentation_eq {line a : List Char} (h : line = a ++ trimStart line) :
    indentation line = byteLength a := by
  have hlen := congrArg byteLength h
  rw [byteLength_append] at hlen
  rw [indentation]
  omega

/-- A front of a line that is not longer than its indentation is blank. -/
theorem isBlankText_of_le_indentation {line front rest : List Char} (h : line = front ++ rest)
    (hle : byteLength front ≤ indentation line) : isBlankText front = true := by
  obtain ⟨a, ha, hline⟩ := exists_trimStart line
  rw [indentation_eq hline] at hle
  have hfront : front <+: line := ⟨rest, h.symm⟩
  have hlead : a <+: line := ⟨trimStart line, hline.symm⟩
  rcases List.prefix_or_prefix_of_prefix hfront hlead with hpre | hpre
  · exact isBlankText_iff.2 fun c hc => isBlankText_iff.1 ha c (hpre.mem hc)
  · obtain ⟨more, rfl⟩ := hpre
    have hmore : more = [] := by
      rw [byteLength_append] at hle
      exact byteLength_eq_zero_iff.1 (by omega)
    rwa [hmore, List.append_nil]

theorem sharedIndentation_le {lines : List (List Char)} {line : List Char} (h : line ∈ lines)
    (hline : isBlankText line = false) : sharedIndentation lines ≤ indentation line := by
  have hmem : indentation line ∈ (lines.filter (!isBlankText ·)).map indentation :=
    List.mem_map_of_mem (List.mem_filter.2 ⟨h, by rw [hline]; rfl⟩)
  rw [sharedIndentation]
  cases hmin : ((lines.filter (!isBlankText ·)).map indentation).min? with
  | none => exact Nat.zero_le _
  | some least => exact (List.min?_eq_some_iff.1 hmin).2 _ hmem

/-! ## outdented lines -/

/-- A line that is moved to the left stays a part of what it was. -/
theorem outdent_isInfix (n : Nat) (line : List Char) : outdent n line <:+: line := by
  have hrest : (dropBytes n line).getD (trimStart line) <:+ line := by
    cases hdrop : dropBytes n line with
    | none => exact List.dropWhile_suffix isBlank
    | some rest =>
      obtain ⟨front, hfront, -⟩ := exists_of_dropBytes hdrop
      exact ⟨front, hfront.symm⟩
  obtain ⟨b, -, hb⟩ := exists_trimEnd ((dropBytes n line).getD (trimStart line))
  have hstart : outdent n line <+: (dropBytes n line).getD (trimStart line) := ⟨b, hb.symm⟩
  exact hstart.isInfix.trans hrest.isInfix

/-- A line that is moved to the left by no more than its indentation says what
it said. -/
theorem trim_outdent {n : Nat} {line : List Char}
    (h : isBlankText line = false → n ≤ indentation line) : trim (outdent n line) = trim line := by
  cases hline : isBlankText line with
  | true =>
    have hblank : isBlankText (outdent n line) = true := isBlankText_iff.2 fun c hc =>
      isBlankText_iff.1 hline c ((outdent_isInfix n line).subset hc)
    rw [trim_eq_nil hblank, trim_eq_nil hline]
  | false =>
    obtain ⟨front, hfront, hrest⟩ : ∃ front, isBlankText front = true ∧
        line = front ++ (dropBytes n line).getD (trimStart line) := by
      cases hdrop : dropBytes n line with
      | none => exact exists_trimStart line
      | some rest =>
        obtain ⟨front, hfront, hn⟩ := exists_of_dropBytes hdrop
        exact ⟨front, isBlankText_of_le_indentation hfront (hn ▸ h hline), hfront⟩
    obtain ⟨b, hb, hend⟩ := exists_trimEnd ((dropBytes n line).getD (trimStart line))
    have hall : line = front ++ outdent n line ++ b := by
      rw [List.append_assoc]
      exact hrest.trans (congrArg (front ++ ·) hend)
    conv => rhs; rw [hall]
    exact (trim_surround hfront hb (outdent n line)).symm

end ResourceAudit.Documentation
