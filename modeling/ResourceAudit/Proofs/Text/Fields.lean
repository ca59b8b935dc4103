import ResourceAudit.Text.Lines

/-!
# ResourceAudit.Proofs.Text.Fields

Cutting a text at a separator and putting pieces together with it are inverse
to each other, as long as no piece holds the separator (`fields_intercalate`).
-/

namespace ResourceAudit.Text

variable {sep : Char}

theorem not_mem_of_mem_fields {s piece : List Char} (h : piece ∈ fields (· == sep) s) :
    sep ∉ piece := by
  induction s generalizing piece with
  | nil =>
    rw [fields, List.mem_singleton] at h
    simp [h]
  | cons c rest ih =>
    rw [fields] at h
    split at h
    · rw [List.mem_cons] at h
      rcases h with rfl | h
      · simp
      · exact ih h
    · next hc =>
      have hne : sep ≠ c := fun he => hc (by simp [he])
      split at h
      · next hnil => exact absurd hnil (fields_ne_nil _ rest)
      · next first others hcons =>
        rw [List.mem_cons] at h
        rcases h with rfl | h
        · rw [List.mem_cons, not_or]
          exact ⟨hne, ih (by simp [hcons])⟩
        · exact ih (by simp [hcons, h])

theorem mem_of_mem_fields {p : Char → Bool} {s piece : List Char} (h : piece ∈ fields p s) {c : Char}
    (hc : c ∈ piece) : c ∈ s := by
  induction s generalizing piece with
  | nil =>
    rw [fields, List.mem_singleton] at h
    exact h ▸ hc
  | cons d rest ih =>
    rw [fields] at h
    split at h
    · rw [List.mem_cons] at h
      rcases h with rfl | h
      · cases hc
      · exact List.mem_cons_of_mem _ (ih h hc)
    · split at h
      · next hnil => exact absurd hnil (fields_ne_nil _ rest)
      · next first others hcons =>
        rw [List.mem_cons] at h
        rcases h with rfl | h
        · rcases List.mem_cons.1 hc with rfl | hc
          · exact List.mem_cons_self
          · exact List.mem_cons_of_mem _ (ih (by simp [hcons]) hc)
        · exact List.mem_cons_of_mem _ (ih (by simp [hcons, h]) hc)

/-- A text without the separator is its only piece. -/
theorem fields_of_not_mem {s : List Char} (h : sep ∉ s) : fields (· == sep) s = [s] := by
  induction s with
  | nil => rfl
  | cons c rest ih =>
    rw [List.mem_cons, not_or] at h
    rw [fields, if_neg (by simpa using Ne.symm h.1), ih h.2]

theorem fields_cons_self (s : List Char) :
    fields (· == sep) (sep :: s) = [] :: fields (· == sep) s := by
  rw [fields, if_pos (beq_self_eq_true sep)]

/-- A separator divides the pieces before it from those behind it. -/
theorem fields_append_sep (s t : List Char) :
    fields (· == sep) (s ++ sep :: t) = fields (· == sep) s ++ fields (· == sep) t := by
  induction s with
  | nil => exact fields_cons_self t
  | cons c rest ih =>
    rw [List.cons_append, fields, fields, ih]
    obtain ⟨piece, others, hcons⟩ := List.exists_cons_of_ne_nil (fields_ne_nil (· == sep) rest)
    split <;> simp [hcons]

/-- A text without the separator in front of one is the first piece. -/
theorem fields_append {s : List Char} (h : sep ∉ s) (t : List Char) :
    fields (· == sep) (s ++ sep :: t) = s :: fields (· == sep) t := by
  rw [fields_append_sep, fields_of_not_mem h, List.singleton_append]

/-- Pieces with a separator behind each are found again; nothing is behind the last
separator. -/
theorem fields_flatMap_sep {pieces : List (List Char)} (h : ∀ piece ∈ pieces, sep ∉ piece) :
    fields (· == sep) (pieces.flatMap (· ++ [sep])) = pieces ++ [[]] := by
  induction pieces with
  | nil => rfl
  | cons piece others ih =>
    rw [List.forall_mem_cons] at h
    rw [List.flatMap_cons, List.append_assoc, List.singleton_append, fields_append h.1, ih h.2,
      List.cons_append]

/-- A text without the separator joins the last piece of what it is behind. -/
theorem exists_fields_append (s : List Char) {t : List Char} (h : sep ∉ t) :
    ∃ front last, fields (· == sep) (s ++ t) = front ++ [last ++ t] := by
  induction s with
  | nil => exact ⟨[], [], fields_of_not_mem h⟩
  | cons c rest ih =>
    obtain ⟨front, last, hfields⟩ := ih
    rw [List.cons_append, fields, hfields]
    split
    · exact ⟨[] :: front, last, rfl⟩
    · cases front with
      | nil => exact ⟨[], c :: last, rfl⟩
      | cons piece front => exact ⟨(c :: piece) :: front, last, rfl⟩

theorem fields_intercalate {pieces : List (List Char)} (hne : pieces ≠ [])
    (h : ∀ piece ∈ pieces, sep ∉ piece) :
    fields (· == sep) ([sep].intercalate pieces) = pieces := by
  induction pieces with
  | nil => exact absurd rfl hne
  | cons piece others ih =>
    rw [List.forall_mem_cons] at h
    cases others with
    | nil => rw [List.intercalate_singleton, fields_of_not_mem h.1]
    | cons next others =>
      rw [List.intercalate_cons_cons, List.append_assoc, List.singleton_append,
        fields_append h.1, ih (by simp) h.2]

/-- What holds of the characters of a text with separators holds of the pieces. -/
theorem forall_mem_intercalate {p : Char → Prop} (hsep : p sep) {pieces : List (List Char)} :
    (∀ c ∈ [sep].intercalate pieces, p c) ↔ ∀ piece ∈ pieces, ∀ c ∈ piece, p c := by
  induction pieces with
  | nil => simp
  | cons piece others ih =>
    cases others with
    | nil => simp
    | cons next others =>
      rw [List.intercalate_cons_cons, List.forall_mem_append, List.forall_mem_append, ih,
        List.forall_mem_singleton, List.forall_mem_cons (l := next :: others)]
      exact ⟨fun h => ⟨h.1.1, h.2⟩, fun h => ⟨⟨h.1, hsep⟩, h.2⟩⟩

theorem join_eq_intercalate (separator : List Char) (pieces : List (List Char)) :
    join separator pieces = separator.intercalate pieces := by
  induction pieces with
  | nil => rfl
  | cons piece others ih =>
    cases others with
    | nil => simp [join]
    | cons next others => rw [join, ih, List.intercalate_cons_cons]; exact List.cons_ne_nil _ _

/-- The pieces of a text make it up again. -/
theorem intercalate_fields (s : List Char) : [sep].intercalate (fields (· == sep) s) = s := by
  induction s with
  | nil => rfl
  | cons c rest ih =>
    obtain ⟨piece, others, hcons⟩ := List.exists_cons_of_ne_nil (fields_ne_nil (· == sep) rest)
    rw [hcons] at ih
    rw [fields, hcons]
    split
    · next hc => rw [List.intercalate_cons_cons, ih, eq_of_beq hc]; rfl
    · rw [← ih]
      cases others with
      | nil => rfl
      | cons next others => rw [List.intercalate_cons_cons, List.intercalate_cons_cons]; rfl

end ResourceAudit.Text
