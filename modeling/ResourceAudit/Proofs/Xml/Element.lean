import ResourceAudit.Proofs.Xml.Forest

/-!
# ResourceAudit.Proofs.Xml.Element

The elements of a forest in the order of the document, which is the order of
their opening tags: an element comes before the elements inside it, and these
before the ones behind it.  `Forest.first?` is what the first element with a
name holds and `Forest.withoutFirst` what is left without that element;
`Forest.exists_tags_of_first?` says both in terms of the tags.
-/

namespace ResourceAudit.Xml.Forest

/-- The character data and the sections of a forest at any depth, expanded and
put together in the order of the document. -/
def innerText : Forest → List Char
  | .nil => []
  | .text ss next => meant ss ++ next.innerText
  | .cdata s next => s.chars ++ next.innerText
  | .aside _ next => next.innerText
  | .empty _ next => next.innerText
  | .element _ content _ next => content.innerText ++ next.innerText

/-- The tags of all elements, in the order of the document. -/
def tags : Forest → List WrittenTag
  | .nil => []
  | .text _ next => next.tags
  | .cdata _ next => next.tags
  | .aside _ next => next.tags
  | .empty tag next => tag :: next.tags
  | .element tag content _ next => tag :: content.tags ++ next.tags

/-- What the first element with a name holds. -/
def first? (name : List Char) : Forest → Option Forest
  | .nil => none
  | .text _ next => next.first? name
  | .cdata _ next => next.first? name
  | .aside _ next => next.first? name
  | .empty tag next => if tag.name.chars = name then some .nil else next.first? name
  | .element tag content _ next =>
    if tag.name.chars = name then some content
    else (content.first? name).or (next.first? name)

/-- A forest without the first element with a name and what that holds. -/
def withoutFirst (name : List Char) : Forest → Forest
  | .nil => .nil
  | .text ss next => .text ss (next.withoutFirst name)
  | .cdata s next => .cdata s (next.withoutFirst name)
  | .aside a next => .aside a (next.withoutFirst name)
  | .empty tag next =>
    if tag.name.chars = name then next else .empty tag (next.withoutFirst name)
  | .element tag content gap next =>
    if tag.name.chars = name then next
    else if (content.first? name).isSome then .element tag (content.withoutFirst name) gap next
    else .element tag content gap (next.withoutFirst name)

variable {name : List Char}

/-- Without an element of the name there is nothing to leave out. -/
theorem withoutFirst_of_first?_eq_none {f : Forest} (h : f.first? name = none) :
    f.withoutFirst name = f := by
  induction f with
  | nil => rfl
  | text ss next ih => rw [withoutFirst, ih h]
  | cdata s next ih => rw [withoutFirst, ih h]
  | aside a next ih => rw [withoutFirst, ih h]
  | empty tag next ih =>
    rw [first?] at h
    split at h
    · simp at h
    · next hne => rw [withoutFirst, if_neg hne, ih h]
  | element tag content gap next _ ih =>
    rw [first?] at h
    split at h
    · simp at h
    · next hne =>
      rw [Option.or_eq_none_iff] at h
      rw [withoutFirst, if_neg hne, h.1, Option.isSome_none, if_neg Bool.false_ne_true, ih h.2]

/-- There is a first element with a name unless no tag has the name. -/
theorem first?_eq_none_iff {f : Forest} :
    f.first? name = none ↔ ∀ t ∈ f.tags, t.name.chars ≠ name := by
  induction f with
  | nil => simp [first?, tags]
  | text ss next ih => rw [first?, tags, ih]
  | cdata s next ih => rw [first?, tags, ih]
  | aside a next ih => rw [first?, tags, ih]
  | empty tag next ih =>
    rw [first?, tags, List.forall_mem_cons]
    split
    · next h => simp [h]
    · next h => rw [ih, and_iff_right h]
  | element tag content gap next ihContent ihNext =>
    rw [first?, tags, List.cons_append, List.forall_mem_cons, List.forall_mem_append]
    split
    · next h => simp [h]
    · next h => rw [Option.or_eq_none_iff, ihContent, ihNext, and_iff_right h]

/-- The tags of a forest are those before its first element with a name, that
of the element, those inside it and those behind it, and those before and behind
it are left without the element. -/
theorem exists_tags_of_first? {f inner : Forest} (h : f.first? name = some inner) :
    ∃ before t after, f.tags = before ++ t :: (inner.tags ++ after) ∧ t.name.chars = name ∧
      (f.withoutFirst name).tags = before ++ after ∧ ∀ u ∈ before, u.name.chars ≠ name := by
  induction f with
  | nil => simp [first?] at h
  | text ss next ih => exact ih h
  | cdata s next ih => exact ih h
  | aside a next ih => exact ih h
  | empty tag next ih =>
    rw [first?] at h
    split at h
    · next ht =>
      cases h
      refine ⟨[], tag, next.tags, rfl, ht, ?_, by simp⟩
      rw [withoutFirst, if_pos ht, List.nil_append]
    · next ht =>
      obtain ⟨before, t, after, htags, hname, hwithout, hbefore⟩ := ih h
      refine ⟨tag :: before, t, after, ?_, hname, ?_, ?_⟩
      · rw [tags, htags, List.cons_append]
      · rw [withoutFirst, if_neg ht, tags, hwithout, List.cons_append]
      · exact List.forall_mem_cons.2 ⟨ht, hbefore⟩
  | element tag content gap next ihContent ihNext =>
    rw [first?] at h
    split at h
    · next ht =>
      cases h
      refine ⟨[], tag, next.tags, rfl, ht, ?_, by simp⟩
      rw [withoutFirst, if_pos ht, List.nil_append]
    · next ht =>
      rw [Option.or_eq_some_iff] at h
      rcases h with hcontent | ⟨hcontent, hnext⟩
      · obtain ⟨before, t, after, htags, hname, hwithout, hbefore⟩ := ihContent hcontent
        refine ⟨tag :: before, t, after ++ next.tags, ?_, hname, ?_, ?_⟩
        · simp [tags, htags]
        · simp [withoutFirst, ht, hcontent, tags, hwithout]
        · exact List.forall_mem_cons.2 ⟨ht, hbefore⟩
      · obtain ⟨before, t, after, htags, hname, hwithout, hbefore⟩ := ihNext hnext
        refine ⟨tag :: (content.tags ++ before), t, after, ?_, hname, ?_, ?_⟩
        · simp [tags, htags]
        · simp [withoutFirst, ht, hcontent, tags, hwithout]
        · exact List.forall_mem_cons.2 ⟨ht, List.forall_mem_append.2
            ⟨first?_eq_none_iff.1 hcontent, hbefore⟩⟩

end ResourceAudit.Xml.Forest
