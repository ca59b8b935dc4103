import ResourceAudit.Text.Cut
import Mathlib.Data.List.Infix

/-!
# ResourceAudit.Proofs.Text.Cut

Where a text is cut.  A closing mark such as `-->` ends in a character that it
has nowhere else, so it cannot begin before the text in front of it has ended:
`cutAt_append` finds exactly that text.  Where a pattern has been found once,
more text behind it changes nothing (`cutAt_extend`), and a pattern that is part of a
text is found in it (`holds_iff`).
-/

namespace ResourceAudit.Text

/-- The front of two texts in a row ends in the first or in the second. -/
theorem prefix_append_cases {s t u : List Char} (h : u <+: s ++ t) :
    u <+: s ∨ ∃ rest, u = s ++ rest ∧ rest <+: t := by
  rcases List.prefix_or_prefix_of_prefix h (List.prefix_append s t) with hu | ⟨rest, rfl⟩
  · exact .inl hu
  · exact .inr ⟨rest, rfl, (List.prefix_append_right_inj s).1 h⟩

/-- A pattern that ends in a character it has nowhere else, found in front of an
occurrence of itself, lies in the text before that. -/
theorem prefix_of_prefix_append {q v t : List Char} {z : Char} (hz : z ∉ q) (hv : v ≠ [])
    (h : q ++ [z] <+: v ++ (q ++ [z]) ++ t) : q ++ [z] <+: v := by
  by_cases hlen : (q ++ [z]).length ≤ v.length
  · rw [List.append_assoc] at h
    exact List.prefix_of_prefix_length_le h (List.prefix_append v _) hlen
  · exfalso
    have hpos := List.length_pos_of_ne_nil hv
    rw [List.length_append, List.length_singleton] at hlen
    -- the last character of the pattern falls on a character of `q`
    have hlast := h.getElem (i := q.length) (by simp)
    have hlt : q.length < (v ++ (q ++ [z])).length := by simp; omega
    rw [List.getElem_concat_length, List.getElem_append_left hlt, List.getElem_append_right (by omega),
      List.getElem_append_left (by omega)] at hlast
    · exact hz (hlast ▸ List.getElem_mem _)
    · rfl

theorem cutAt_append {q s : List Char} {z : Char} (hz : z ∉ q) (h : ¬ q ++ [z] <:+: s)
    (t : List Char) : cutAt (q ++ [z]) (s ++ (q ++ [z]) ++ t) = some (s, t) := by
  induction s with
  | nil =>
    obtain ⟨c, p, hp⟩ : ∃ c p, q ++ [z] = c :: p := List.exists_cons_of_ne_nil (by simp)
    have hpre : (c :: p).isPrefixOf (c :: (p ++ t)) = true :=
      List.isPrefixOf_iff_prefix.2 (List.prefix_append (c :: p) t)
    rw [List.nil_append, hp, List.cons_append, cutAt, if_pos hpre, List.length_cons,
      List.drop_succ_cons, List.drop_left]
  | cons c rest ih =>
    have hpre : ¬ (q ++ [z]).isPrefixOf (c :: (rest ++ (q ++ [z]) ++ t)) = true := by
      rw [List.isPrefixOf_iff_prefix]
      intro hpre
      exact h (prefix_of_prefix_append hz (List.cons_ne_nil c rest) hpre).isInfix
    have hrest : ¬ q ++ [z] <:+: rest := fun hin => h (hin.trans (List.suffix_cons c rest).isInfix)
    rw [List.cons_append, List.cons_append, cutAt, if_neg hpre, ih hrest, Option.map_some]

/-- A text is cut at a character that is not in it. -/
theorem cutAt_singleton {q : Char} {s : List Char} (h : q ∉ s) (t : List Char) :
    cutAt [q] (s ++ q :: t) = some (s, t) := by
  have hcut := cutAt_append (q := []) (z := q) List.not_mem_nil (s := s)
    (fun hin => h (hin.subset (List.mem_singleton_self q))) t
  rwa [List.nil_append, List.append_assoc, List.singleton_append] at hcut

/-- Where a pattern is found does not depend on what comes behind it. -/
theorem cutAt_extend {pattern s before after : List Char}
    (h : cutAt pattern s = some (before, after)) (t : List Char) :
    cutAt pattern (s ++ t) = some (before, after ++ t) := by
  induction s generalizing before with
  | nil =>
    rw [cutAt] at h
    split at h
    · next hp =>
      simp only [Option.some.injEq, Prod.mk.injEq] at h
      obtain ⟨rfl, rfl⟩ := h
      rw [List.isEmpty_iff.1 hp]
      cases t <;> rfl
    · simp at h
  | cons c rest ih =>
    rw [cutAt] at h
    rw [List.cons_append, cutAt]
    split at h
    · next hp =>
      simp only [Option.some.injEq, Prod.mk.injEq] at h
      obtain ⟨rfl, rfl⟩ := h
      have hpre := List.isPrefixOf_iff_prefix.1 hp
      have hlong : pattern.isPrefixOf (c :: (rest ++ t)) = true :=
        List.isPrefixOf_iff_prefix.2 (hpre.trans (List.prefix_append (c :: rest) t))
      rw [if_pos hlong, ← List.cons_append, List.drop_append_of_le_length hpre.length_le]
    · next hp =>
      simp only [Option.map_eq_some_iff, Prod.mk.injEq] at h
      obtain ⟨⟨b, a⟩, hb, rfl, rfl⟩ := h
      -- the pattern is found in the rest, so it is no longer than the rest
      have hlen : pattern.length ≤ (c :: rest).length := by
        rw [cutAt_eq_append hb]
        simp only [List.length_cons, List.length_append]
        omega
      have hlong : ¬ pattern.isPrefixOf (c :: (rest ++ t)) = true := by
        rw [List.isPrefixOf_iff_prefix] at hp ⊢
        intro hpre
        exact hp (List.prefix_of_prefix_length_le hpre (List.prefix_append (c :: rest) t) hlen)
      rw [if_neg hlong, ih hb, Option.map_some]

theorem holds_iff {pattern s : List Char} : holds pattern s = true ↔ pattern <:+: s := by
  rw [holds, Option.isSome_iff_exists]
  constructor
  · rintro ⟨⟨before, after⟩, h⟩
    exact ⟨before, after, (cutAt_eq_append h).symm⟩
  · intro h
    induction s with
    | nil =>
      obtain rfl : pattern = [] := List.infix_nil.1 h
      exact ⟨([], []), rfl⟩
    | cons c rest ih =>
      rw [cutAt]
      split
      · exact ⟨_, rfl⟩
      · next hfront =>
        rw [List.isPrefixOf_iff_prefix] at hfront
        obtain ⟨cut, hcut⟩ := ih ((List.infix_cons_iff.1 h).resolve_left hfront)
        exact ⟨_, by rw [hcut, Option.map_some]⟩

end ResourceAudit.Text
