import ResourceAudit.Proofs.Documentation.Malformed
import ResourceAudit.Proofs.Xml.Cut

/-!
# ResourceAudit.Proofs.Documentation.MemberName

The name of an entry.  Only tags give a name, and the first one that does is the last:
what comes behind it changes nothing (`Extraction.name_foldlM_step_of_some`).  So an
entry that is read from the markup of a member has the ID of the member for its name,
whatever the documentation lines are (`name_of_entryOfMarkup_markup`).
-/

namespace ResourceAudit

open ResourceAudit.Text ResourceAudit.Xml

namespace Extraction

/-- Without a tag no name is found. -/
theorem name_of_untagged {x y : Extraction} {event : Event} (htag : event.tag? = none)
    (h : x.step event = some y) : y.name = x.name := by
  cases event with
  | «opened» tag | empty tag => cases htag
  | text raw =>
    rw [step] at h
    split at h
    · obtain ⟨text, -, hy⟩ := Option.bind_eq_some_iff.1 h
      cases hy
      rfl
    · cases h
      rfl
  | cdata text =>
    rw [step, Option.some.injEq] at h
    rw [← h]
    split <;> rfl
  | closed name =>
    rw [step] at h
    split at h
    · cases h
    · dsimp only at h
      split at h <;> cases h <;> rfl
  | other =>
    cases h
    rfl

theorem name_element_of_some {x y : Extraction} {tag : Tag} {name : List Char}
    (hname : x.name = some name) (h : x.element tag = some y) : y.name = some name := by
  rw [element, if_neg fun hmember => by simp [hname] at hmember] at h
  cases h
  exact hname

/-- A name that has been found stays. -/
theorem name_step_of_some {x y : Extraction} {event : Event} {name : List Char}
    (hname : x.name = some name) (h : x.step event = some y) : y.name = some name := by
  cases event with
  | «opened» tag =>
    rw [step] at h
    dsimp only at h
    split at h
    · cases h
      exact hname
    · split at h
      · cases h
        exact hname
      · refine name_element_of_some ?_ h
        exact hname
  | empty tag =>
    rw [step] at h
    split at h
    · cases h
      exact hname
    · split at h
      · cases h
        exact hname
      · exact name_element_of_some hname h
  | _ => rw [name_of_untagged rfl h, hname]

theorem name_foldlM_step_of_some {events : List Event} {x y : Extraction} {name : List Char}
    (hname : x.name = some name) (h : events.foldlM step x = some y) : y.name = some name := by
  induction events generalizing x with
  | nil =>
    cases h
    exact hname
  | cons event rest ih =>
    obtain ⟨z, hz, hrest⟩ := Option.bind_eq_some_iff.1 h
    exact ih (name_step_of_some hname hz) hrest

/-- An entry has the name that has been found. -/
theorem name_of_toEntry {x : Extraction} {e : Entry} {name : List Char}
    (hname : x.name = some name) (h : x.toEntry = some e) : e.name = .ofList (trim name) := by
  rw [toEntry_eq, hname] at h
  split at h
  · simp only [Option.bind_some, Option.bind_eq_some_iff, Option.ite_none_left_eq_some,
      Option.some.injEq] at h
    obtain ⟨summary, -, -, rfl⟩ := h
    rfl
  · cases h

end Extraction

namespace Documentation

/-- The markup of a member begins with its tag. -/
theorem exists_readFrom_markupOf (id : List Char) (lines : List (List Char)) :
    ∃ rest, readFrom [] (markupOf id lines) = .cons (.opened (memberTag id).tag) rest := by
  have hfront : markupOf id lines = '<' :: ((memberTag id).content ++ ['>'] ++
      '\n' :: (lines.flatMap (bodyLine (sharedIndentation lines)) ++ "</member>\n".toList)) := by
    rw [markupOf_eq, markupBy, content_memberTag, written_spell]
    simp
  rw [hfront, readFrom_bracket, readMarkup_opened (nextMarkup_opened (memberTag id) _)]
  exact ⟨_, rfl⟩

/-- The tag of a member gives the ID for a name. -/
theorem step_memberTag (id : List Char) :
    Extraction.step ⟨none, none, 0, 0, []⟩ (.opened (memberTag id).tag) =
      some ⟨some id, none, 1, 0, []⟩ := by
  have hvalue : memberOf? (memberTag id) = some (meant (spell id)) := rfl
  have hother : ¬ (memberTag id).name.chars = "summary".toList :=
    show "member".toList ≠ "summary".toList by decide
  rw [step_opened_outside, if_neg fun h => hother h.1, hvalue, meant_spell]
  rfl

/-- Without markup there is no entry. -/
theorem entryOfMarkup_nil : entryOfMarkup (.ofList []) = none := by
  rw [entryOfMarkup_ofList, readFrom_nil]
  rfl

/-- The name of an entry is the ID of the member that it is read from. -/
theorem name_of_entryOfMarkup_markup {id : String} {lines : List String} {e : Entry}
    (h : entryOfMarkup (markup id lines) = some e) : e.name = .ofList (trim id.toList) := by
  rw [markup] at h
  split at h
  · exact absurd (entryOfMarkup_nil.symm.trans h) (by simp)
  · obtain ⟨rest, hrest⟩ := exists_readFrom_markupOf id.toList (lines.map String.toList)
    rw [entryOfMarkup_ofList, hrest, Document.events_cons, List.foldlM_cons, step_memberTag,
      Option.bind_eq_some_iff] at h
    obtain ⟨x, hx, hentry⟩ := h
    obtain ⟨-, -, he⟩ := Option.bind_eq_some_iff.1 hentry
    exact Extraction.name_of_toEntry (Extraction.name_foldlM_step_of_some rfl hx) he

end Documentation

end ResourceAudit
