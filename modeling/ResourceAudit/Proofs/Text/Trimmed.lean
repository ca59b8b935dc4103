import ResourceAudit.Proofs.Text.Lines

/-!
# ResourceAudit.Proofs.Text.Trimmed

Trimmed texts.  `IsTrimmed` is what trimming leaves of a text that is not blank
(`isTrimmed_trim`), and such a text trimming leaves alone (`IsTrimmed.trim_eq`).
The trimmed lines of a text are trimmed texts on one line (`isTrimmed_of_mem_trimmedLines`,
`lineFeed_not_mem_of_mem_trimmedLines`), and joined they are one again
(`isTrimmed_join`).
-/

namespace ResourceAudit.Text

/-- A text that is not empty and neither begins nor ends with white space. -/
structure IsTrimmed (s : List Char) : Prop where
  ne_nil : s ≠ []
  isBlank_head : ∀ c ∈ s.head?, isBlank c = false
  isBlank_getLast : ∀ c ∈ s.getLast?, isBlank c = false

/-! ## trimming -/

theorem isBlank_head_trimStart (s : List Char) : ∀ c ∈ (trimStart s).head?, isBlank c = false := by
  intro c hc
  have hhead := List.head?_dropWhile_not isBlank s
  rw [trimStart, Option.mem_def] at hc
  rwa [hc] at hhead

theorem isTrimmed_trim {s : List Char} (h : isBlankText s = false) : IsTrimmed (trim s) where
  ne_nil hnil := by
    rw [trim_eq_nil_iff.1 hnil] at h
    cases h
  isBlank_head c hc := by
    obtain ⟨b, -, hb⟩ := exists_trimEnd (trimStart s)
    rw [trim, Option.mem_def] at hc
    refine isBlank_head_trimStart s c ?_
    rw [hb, List.head?_append, hc]
    rfl
  isBlank_getLast c hc := by
    rw [trim, trimEnd_eq, List.getLast?_reverse] at hc
    exact isBlank_head_trimStart _ c hc

theorem isTrimmed_singleton {c : Char} (h : isBlank c = false) : IsTrimmed [c] where
  ne_nil := List.cons_ne_nil c []
  isBlank_head := fun _ hc => Option.mem_some.1 hc ▸ h
  isBlank_getLast := fun _ hc => Option.mem_some.1 hc ▸ h

theorem trimStart_of_head {s : List Char} (h : ∀ c ∈ s.head?, isBlank c = false) :
    trimStart s = s := by
  cases s with
  | nil => rfl
  | cons c rest => exact List.dropWhile_cons_of_neg (by simp [h c rfl])

/-- Trimming leaves a trimmed text alone. -/
theorem IsTrimmed.trim_eq {s : List Char} (h : IsTrimmed s) : trim s = s := by
  rw [trim, trimStart_of_head h.isBlank_head, trimEnd_eq, trimStart_of_head, List.reverse_reverse]
  rw [List.head?_reverse]
  exact h.isBlank_getLast

theorem IsTrimmed.isBlankText {s : List Char} (h : IsTrimmed s) : isBlankText s = false := by
  rw [Bool.eq_false_iff]
  intro hs
  exact h.ne_nil (h.trim_eq ▸ trim_eq_nil hs)

/-! ## joining -/

/-- What stands between trimmed texts does not matter. -/
theorem IsTrimmed.append {s t : List Char} (hs : IsTrimmed s) (ht : IsTrimmed t) (m : List Char) :
    IsTrimmed (s ++ m ++ t) where
  ne_nil hnil := hs.ne_nil (List.append_eq_nil_iff.1 (List.append_eq_nil_iff.1 hnil).1).1
  isBlank_head c hc := by
    obtain ⟨d, rest, rfl⟩ := List.exists_cons_of_ne_nil hs.ne_nil
    exact hs.isBlank_head c hc
  isBlank_getLast c hc := by
    rw [List.getLast?_append, Option.or_of_isSome (List.getLast?_isSome.2 ht.ne_nil)] at hc
    exact ht.isBlank_getLast c hc

theorem isTrimmed_join (sep : List Char) {ts : List (List Char)} (hne : ts ≠ [])
    (h : ∀ t ∈ ts, IsTrimmed t) : IsTrimmed (join sep ts) := by
  induction ts with
  | nil => exact absurd rfl hne
  | cons t rest ih =>
    rw [List.forall_mem_cons] at h
    cases rest with
    | nil => exact h.1
    | cons u us => exact h.1.append (ih (List.cons_ne_nil u us) h.2) sep

theorem not_mem_join {c : Char} {sep : List Char} (hsep : c ∉ sep) {ts : List (List Char)}
    (h : ∀ t ∈ ts, c ∉ t) : c ∉ join sep ts := by
  induction ts with
  | nil => exact List.not_mem_nil
  | cons t rest ih =>
    rw [List.forall_mem_cons] at h
    cases rest with
    | nil => exact h.1
    | cons u us =>
      rw [join, List.mem_append, List.mem_append, not_or, not_or]
      · exact ⟨⟨h.1, hsep⟩, ih h.2⟩
      · exact List.cons_ne_nil u us

/-! ## lines -/

theorem lineFeed_not_mem_of_mem_lines {s line : List Char} (h : line ∈ lines s) : '\n' ∉ line := by
  fun_induction lines s generalizing line with
  | case1 => cases h
  | case2 rest ih | case3 rest ih =>
    rcases List.mem_cons.1 h with rfl | h
    · exact List.not_mem_nil
    · exact ih h
  | case4 c rest hfeed _ hnil ih =>
    rw [List.mem_singleton.1 h, List.mem_singleton]
    exact fun hc => hfeed hc.symm
  | case5 c rest hfeed _ first others hcons ih =>
    rw [hcons] at ih
    rcases List.mem_cons.1 h with rfl | h
    · rw [List.mem_cons, not_or]
      exact ⟨fun hc => hfeed hc.symm, ih List.mem_cons_self⟩
    · exact ih (List.mem_cons_of_mem _ h)

theorem isTrimmed_of_mem_trimmedLines {s t : List Char} (h : t ∈ trimmedLines s) :
    IsTrimmed t := by
  obtain ⟨hmem, hne⟩ := List.mem_filter.1 h
  obtain ⟨line, -, rfl⟩ := List.mem_map.1 hmem
  refine isTrimmed_trim (Bool.eq_false_iff.2 fun hline => ?_)
  rw [trim_eq_nil hline] at hne
  cases hne

theorem lineFeed_not_mem_of_mem_trimmedLines {s t : List Char} (h : t ∈ trimmedLines s) :
    '\n' ∉ t := by
  obtain ⟨line, hline, rfl⟩ := List.mem_map.1 (List.mem_filter.1 h).1
  exact fun hmem => lineFeed_not_mem_of_mem_lines hline (mem_of_mem_trim hmem)

/-- A trimmed text on one line is its only line. -/
theorem IsTrimmed.trimmedLines_eq {s : List Char} (h : IsTrimmed s) (hs : '\n' ∉ s) :
    trimmedLines s = [s] := by
  rw [trimmedLines_of_not_mem hs, h.trim_eq]
  simpa using h.ne_nil

/-- A text that does not end with white space is the line that it stands on. -/
theorem lines_append_lineFeed {s : List Char} (h : '\n' ∉ s)
    (hlast : ∀ c ∈ s.getLast?, isBlank c = false) (t : List Char) :
    lines (s ++ '\n' :: t) = s :: lines t := by
  obtain ⟨line, b, hb, rfl, hlines⟩ := exists_lines_append h t
  have hnil : b = [] := by
    by_contra hne
    obtain ⟨c, hc⟩ := Option.ne_none_iff_exists'.1 (mt List.getLast?_eq_none_iff.1 hne)
    have hblank := isBlankText_iff.1 hb c (List.mem_of_getLast? hc)
    rw [hlast c (by rw [List.getLast?_append, hc]; rfl)] at hblank
    cases hblank
  rw [hnil, List.append_nil] at hlines ⊢
  exact hlines

end ResourceAudit.Text
