import ResourceAudit.Proofs.Documentation.RoundTrip
import ResourceAudit.Proofs.Xml.Cut

/-!
# ResourceAudit.Proofs.Documentation.Truncation

Documentation that breaks off gives no entry.  Going through a documentation text
counts the open elements as the events have them (`opened_of_foldlM_step`), and a
text that breaks off has a fault or leaves its member open, also where the first
summary has been read by then.  So of all the fronts of the text of a member the
whole is the only one that may give an entry (`entryOfMarkup_memberText`).
-/

namespace ResourceAudit

open ResourceAudit.Text ResourceAudit.Xml

/-! ## counting open elements -/

theorem Extraction.opened_element {x y : Extraction} {tag : Tag} (h : x.element tag = some y) :
    y.opened = x.opened := by
  unfold element at h
  split at h
  · obtain ⟨name, -, hy⟩ := Option.bind_eq_some_iff.1 h
    cases hy
    rfl
  · cases h
    rfl

/-- A step counts the open elements. -/
theorem Extraction.opened_step {x y : Extraction} {event : Event} (h : x.step event = some y)
    (events : List Event) : openAfter x.opened (event :: events) = openAfter y.opened events := by
  cases event with
  | «opened» tag =>
    rw [step] at h
    dsimp only at h
    rw [openAfter]
    split at h
    · cases h
      rfl
    · split at h
      · cases h
        rfl
      · rw [opened_element h]
  | empty tag =>
    rw [step] at h
    rw [openAfter]
    split at h
    · cases h
      rfl
    · split at h
      · cases h
        rfl
      · rw [opened_element h]
  | text raw =>
    rw [step] at h
    rw [openAfter]
    split at h
    · obtain ⟨text, -, hy⟩ := Option.bind_eq_some_iff.1 h
      cases hy
      rfl
    · cases h
      rfl
  | cdata text =>
    rw [step, Option.some.injEq] at h
    rw [openAfter, ← h]
    split <;> rfl
  | closed name =>
    rw [step] at h
    rw [openAfter]
    split at h
    · cases h
    · next hopen =>
      rw [if_neg hopen]
      dsimp only at h
      split at h <;> cases h <;> rfl
  | other =>
    cases h
    rfl

/-- Going through events counts the open elements. -/
theorem opened_of_foldlM_step {events : List Event} {x y : Extraction}
    (h : events.foldlM Extraction.step x = some y) : openAfter x.opened events = some y.opened := by
  induction events generalizing x with
  | nil =>
    cases h
    rfl
  | cons event rest ih =>
    obtain ⟨z, hz, hrest⟩ := Option.bind_eq_some_iff.1 h
    rw [Extraction.opened_step hz, ih hrest]

theorem toEntry_of_opened {x : Extraction} (h : 0 < x.opened) : x.toEntry = none := by
  rw [Extraction.toEntry_eq, if_neg (Nat.ne_of_gt h)]

/-- A text that leaves an element open gives no entry. -/
theorem entryOfMarkup_of_leavesOpen {s : List Char} (h : (Document.ofText s).LeavesOpen) :
    entryOfMarkup (.ofList s) = none := by
  rw [entryOfMarkup, String.toList_ofList]
  cases hx : (Document.ofText s).events.foldlM Extraction.step ⟨none, none, 0, 0, []⟩ with
  | none => rfl
  | some x =>
    cases hfault : (Document.ofText s).fault with
    | some fault => rfl
    | none => exact toEntry_of_opened (h hfault 0 _ (opened_of_foldlM_step hx))

end ResourceAudit

namespace ResourceAudit.Documentation

open ResourceAudit.Text ResourceAudit.Xml

/-! ## the text of a member -/

/-- The text of a member with the given ID. -/
def memberText (id : List Char) (content : Forest) : List Char :=
  "<member name=\"".toList ++ escape id ++ "\">".toList ++ content.source ++ "</member>".toList

/-- The member as a forest. -/
def memberForest (id : List Char) (content : Forest) : Forest :=
  .element (memberTag id) content .none .nil

theorem source_memberForest (id : List Char) (content : Forest) :
    (memberForest id content).source = memberText id content := by
  have hname : (memberTag id).name.chars = "member".toList := rfl
  have hnil : Forest.nil.source = [] := rfl
  have hgap : Gap.none.chars = [] := rfl
  unfold memberForest memberText
  rw [Forest.source, hnil, hgap, hname, content_memberTag, written_spell]
  generalize content.source = inside
  generalize escape id = name
  simp only [List.append_nil, List.cons_append, List.append_assoc]
  rfl

/-- The name of a member is its ID, and its value what its content says. -/
theorem entry_memberForest (id : List Char) (content : Forest) :
    (memberForest id content).entry =
      ⟨.ofList (trim id), .ofList (joinLines content.summaryText)⟩ := by
  have hvalue : memberOf? (memberTag id) = some (meant (spell id)) := rfl
  have htag : (memberTag id).name.chars ≠ "summary".toList := by
    change "member".toList ≠ "summary".toList
    decide
  have hname : (memberForest id content).memberName = id := by
    have htags : ∃ others, ((memberForest id content).withoutFirst "summary".toList).tags =
        memberTag id :: others := by
      rw [memberForest, Forest.withoutFirst, if_neg htag]
      split
      · exact ⟨_, rfl⟩
      · exact ⟨_, rfl⟩
    obtain ⟨others, htags⟩ := htags
    rw [Forest.memberName, htags, memberName?_cons, hvalue, Option.some_or, Option.getD_some,
      meant_spell]
  have htext : (memberForest id content).summaryText = content.summaryText := by
    rw [Forest.summaryText, Forest.summary?, memberForest, Forest.first?, if_neg htag,
      Forest.first?, Option.or_none]
    rfl
  rw [Forest.entry, hname, htext]

/-- The text of a member gives its entry, unless the ID or what the content says is
blank, and no text that breaks off before the end of it gives an entry, wherever
that is. -/
theorem entryOfMarkup_memberText (id : List Char) (content : Forest) :
    (∀ s, s <+: memberText id content → s ≠ memberText id content →
      entryOfMarkup (.ofList s) = none) ∧
    entryOfMarkup (.ofList (memberText id content)) =
      if isBlankText (trim id) || isBlankText (joinLines content.summaryText) then none
      else some ⟨.ofList (trim id), .ofList (joinLines content.summaryText)⟩ := by
  constructor
  · intro s hs hne
    cases s with
    | nil => exact entryOfMarkup_source .nil
    | cons c rest =>
      obtain ⟨rfl, -⟩ := List.cons_prefix_cons.1 hs
      rw [← source_memberForest] at hs hne
      refine entryOfMarkup_of_leavesOpen ?_
      rcases Forest.leavesOpen_of_prefix_element [] hs hne with hnil | hopen
      · cases hnil
      · exact hopen
  · rw [← source_memberForest, entryOfMarkup_source, entry_memberForest, Entry.isBlank,
      String.toList_ofList, String.toList_ofList]

/-- Two summaries, with a comment between them. -/
def savedAndLoaded : Forest :=
  .element summaryTag (.text (spell "Saved".toList) .nil) .none
    (.aside (.comment " or ".toList (by decide))
      (.element summaryTag (.text (spell "Loaded".toList) .nil) .none .nil))

/-- The name and the first summary are not enough. -/
theorem entryOfMarkup_memberText_savedAndLoaded :
    "<member name=\"P:A.Done\"><summary>Saved</summary>".toList <+:
      memberText "P:A.Done".toList savedAndLoaded ∧
    "<member name=\"P:A.Done\"><summary>Saved</summary>".toList ≠
      memberText "P:A.Done".toList savedAndLoaded ∧
    entryOfMarkup (.ofList "<member name=\"P:A.Done\"><summary>Saved</summary>".toList) = none ∧
    entryOfMarkup (.ofList (memberText "P:A.Done".toList savedAndLoaded)) =
      some ⟨"P:A.Done", "Saved"⟩ := by
  have hfront : "<member name=\"P:A.Done\"><summary>Saved</summary>".toList <+:
      memberText "P:A.Done".toList savedAndLoaded := by decide +kernel
  have hne : "<member name=\"P:A.Done\"><summary>Saved</summary>".toList ≠
      memberText "P:A.Done".toList savedAndLoaded := by decide +kernel
  obtain ⟨hcut, hwhole⟩ := entryOfMarkup_memberText "P:A.Done".toList savedAndLoaded
  refine ⟨hfront, hne, hcut _ hfront hne, hwhole.trans ?_⟩
  decide +kernel

end ResourceAudit.Documentation
