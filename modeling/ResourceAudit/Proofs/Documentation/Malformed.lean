import ResourceAudit.Proofs.Documentation.RoundTrip
import ResourceAudit.Proofs.Xml.BrokenReference
import ResourceAudit.Proofs.Xml.Slot

/-!
# ResourceAudit.Proofs.Documentation.Malformed

Documentation with a broken reference in its character data.  Only the text of
the first summary is expanded.  There a broken reference leaves no entry, at any
depth (`foldlM_step_source_inside`); everywhere else character data is not looked
at, and the documentation gives the entry that it gives with well-formed text
(`foldlM_step_source_outside`).  `entryOfMarkup_brokenReference` puts both
together.
-/

namespace ResourceAudit

open ResourceAudit.Text ResourceAudit.Xml

/-- What documentation gives, from the events of its text; a byte order mark does not
count. -/
theorem entryOfMarkup_ofList (s : List Char) :
    entryOfMarkup (.ofList s) =
      ((readFrom [] s).events.foldlM Extraction.step ⟨none, none, 0, 0, []⟩).bind fun x =>
        (guard (readFrom [] s).fault.isNone : Option Unit).bind fun _ => x.toEntry := by
  rw [entryOfMarkup, String.toList_ofList, foldlM_ofText (fun _ => rfl), fault_ofText]
  rfl

variable {raw : List Char}

/-! ## in the first summary -/

/-- In the first summary a broken reference is as good as a fault. -/
theorem foldlM_step_source_inside (hraw : '<' ∉ raw) (hbroken : BreaksReference raw) (slot : Slot)
    (name summary : Option (List Char)) (opened depth : Nat) (text : List Char)
    (stack : List (List Char)) (markup : List Char) :
    (readFrom stack (slot.source raw ++ '<' :: markup)).events.foldlM Extraction.step
      ⟨name, summary, opened, depth + 1, text⟩ = none := by
  induction slot generalizing opened depth text stack markup with
  | between before after ends =>
    have hfirst : ∀ more,
        (readFrom stack (after.source ++ '<' :: markup)).events.head? ≠ some (.text more) := by
      obtain ⟨rest, hrest⟩ := Forest.source_of_not_beginsWithText ends markup
      rw [hrest, readFrom_bracket]
      exact head?_readMarkup stack rest
    have hne : raw ≠ [] := by
      rintro rfl
      exact not_breaksReference_nil hbroken
    have hstep : ∀ more, Extraction.step ⟨name, summary, opened, depth + 1, more⟩ (.text raw) =
        none := by
      intro more
      rw [Extraction.step, if_pos (Nat.succ_pos depth),
        (toOption_expand_eq_none_iff raw).2 hbroken]
      rfl
    rw [Slot.readFrom_between hraw, Forest.foldlM_precede_events takesPieces_step,
      foldlM_step_inside, Option.bind_some, Document.prependText_of_not_text hfirst hne,
      Document.events_cons, List.foldlM_cons, hstep]
    rfl
  | inside before tag slot gap after ih =>
    rw [Slot.readFrom_inside, Forest.foldlM_precede_events takesPieces_step, foldlM_step_inside,
      Option.bind_some, Document.events_cons, List.foldlM_cons, step_opened_inside]
    exact ih ..

/-- A broken reference in the first summary, where there was none before. -/
theorem foldlM_step_source_isInFirst (hraw : '<' ∉ raw) (hbroken : BreaksReference raw)
    {slot : Slot} (hslot : slot.isInFirst "summary".toList = true) (name : Option (List Char))
    (opened : Nat) (stack : List (List Char)) (rest : List Char) :
    (readFrom stack (slot.source raw ++ rest)).events.foldlM Extraction.step
      ⟨name, none, opened, 0, []⟩ = none := by
  induction slot generalizing name opened stack rest with
  | between before after ends => cases hslot
  | inside before tag slot gap after ih =>
    rw [Slot.isInFirst, Bool.and_eq_true, Option.isNone_iff_eq_none, Bool.or_eq_true,
      beq_iff_eq] at hslot
    obtain ⟨hbefore, htag⟩ := hslot
    rw [Slot.readFrom_inside, Forest.foldlM_precede_events takesPieces_step, foldlM_step_outside,
      Option.bind_some, Forest.summary?, hbefore, Option.map_none, Document.events_cons,
      List.foldlM_cons, step_opened_outside]
    by_cases hsummary : tag.name.chars = "summary".toList
    · rw [if_pos ⟨hsummary, rfl⟩]
      exact foldlM_step_source_inside hraw hbroken ..
    · rw [if_neg fun h => hsummary h.1]
      exact ih (htag.resolve_left hsummary) ..

/-! ## outside the first summary -/

/-- A forest outside the first summary leaves the reader outside of it, and there
has been a summary if there was one before or in the forest. -/
theorem exists_foldlM_step_outside (f : Forest) (name summary : Option (List Char))
    (opened : Nat) :
    ∃ name' summary', f.events.foldlM Extraction.step ⟨name, summary, opened, 0, []⟩ =
        some ⟨name', summary', opened, 0, []⟩ ∧
      (summary' = none → summary = none ∧ f.first? "summary".toList = none) := by
  cases summary with
  | none =>
    exact ⟨_, _, foldlM_step_outside f name opened, fun h => ⟨rfl, Option.map_eq_none_iff.1 h⟩⟩
  | some text => exact ⟨_, _, foldlM_step_behind f name text opened, fun h => nomatch h⟩

/-- Outside the first summary the reader goes on the same whatever the text. -/
theorem foldlM_step_source_outside {other : List Char} (hraw : '<' ∉ raw) (hother : '<' ∉ other)
    (slot : Slot) (name summary : Option (List Char))
    (hslot : summary = none → slot.isInFirst "summary".toList = false) (opened : Nat)
    (stack : List (List Char)) (rest : List Char) :
    (readFrom stack (slot.source raw ++ rest)).events.foldlM Extraction.step
        ⟨name, summary, opened, 0, []⟩ =
      (readFrom stack (slot.source other ++ rest)).events.foldlM Extraction.step
        ⟨name, summary, opened, 0, []⟩ := by
  induction slot generalizing name summary opened stack rest with
  | between before after ends =>
    obtain ⟨name', summary', hbefore, -⟩ := exists_foldlM_step_outside before name summary opened
    rw [Slot.readFrom_between hraw, Slot.readFrom_between hother,
      Forest.foldlM_precede_events takesPieces_step, Forest.foldlM_precede_events takesPieces_step,
      hbefore, Option.bind_some, Option.bind_some, foldlM_prependText_of_ignored (fun _ => rfl),
      foldlM_prependText_of_ignored (fun _ => rfl)]
  | inside before tag slot gap after ih =>
    obtain ⟨name', summary', hbefore, hnone⟩ :=
      exists_foldlM_step_outside before name summary opened
    have hinside : summary' = none →
        tag.name.chars ≠ "summary".toList ∧ slot.isInFirst "summary".toList = false := by
      intro hsummary
      obtain ⟨hno, hfirst⟩ := hnone hsummary
      have hin := hslot hno
      rw [Slot.isInFirst, hfirst, Option.isNone_none, Bool.true_and, Bool.or_eq_false_iff,
        beq_eq_false_iff_ne] at hin
      exact hin
    rw [Slot.readFrom_inside, Slot.readFrom_inside,
      Forest.foldlM_precede_events takesPieces_step, Forest.foldlM_precede_events takesPieces_step,
      hbefore, Option.bind_some, Option.bind_some, Document.events_cons, Document.events_cons,
      List.foldlM_cons, List.foldlM_cons, step_opened_outside, if_neg fun h => (hinside h.2).1 h.1]
    exact ih _ _ (fun h => (hinside h).2) _ _ _

/-! ## the entry -/

/-- Outside the first summary all texts are alike. -/
theorem entryOfMarkup_source_congr {other : List Char} (hraw : '<' ∉ raw) (hother : '<' ∉ other)
    {slot : Slot} (hslot : slot.isInFirst "summary".toList = false) :
    entryOfMarkup (.ofList (slot.source raw)) = entryOfMarkup (.ofList (slot.source other)) := by
  have hevents := foldlM_step_source_outside hraw hother slot none none (fun _ => hslot) 0 [] []
  have hfault := slot.fault_readFrom_source hraw hother [] []
  rw [List.append_nil, List.append_nil] at hevents hfault
  rw [entryOfMarkup_ofList, entryOfMarkup_ofList, hevents, hfault]

/-- Documentation with a broken reference gives no entry if that is in the first
summary.  Everywhere else, it gives the entry that it gives with any well-formed
text in the place of the broken one. -/
theorem entryOfMarkup_brokenReference (hraw : '<' ∉ raw) (hbroken : BreaksReference raw)
    (slot : Slot) (ss : List Spelling) :
    entryOfMarkup (.ofList (slot.source raw)) =
      if slot.isInFirst "summary".toList then none
      else entryOfMarkup (.ofList (slot.fill ss).source) := by
  split
  · next hslot =>
    have hevents := foldlM_step_source_isInFirst hraw hbroken hslot none 0 [] []
    rw [List.append_nil] at hevents
    rw [entryOfMarkup_ofList, hevents]
    rfl
  · next hslot =>
    rw [slot.source_fill]
    exact entryOfMarkup_source_congr hraw (lt_not_mem_written ss) (Bool.eq_false_iff.2 hslot)

/-- A place in the first summary, in an element that also stands in it. -/
def codePlace : Slot :=
  .inside .nil (Documentation.memberTag "P:A.Save".toList)
    (.inside .nil Documentation.summaryTag
      (.inside (.text (spell "Save".toList) .nil)
        ⟨⟨"c".toList, by decide, List.all_eq_true.1 rfl⟩, [], .none⟩
        (.between .nil .nil rfl) .none .nil)
      .none .nil)
    .none .nil

/-- A place behind the first summary. -/
def remarksPlace : Slot :=
  .inside .nil (Documentation.memberTag "P:NS.Strings.X".toList)
    (.inside (.element Documentation.summaryTag (.text (spell "Hi".toList) .nil) .none .nil)
      ⟨⟨"remarks".toList, by decide, List.all_eq_true.1 rfl⟩, [], .none⟩
      (.between .nil .nil rfl) .none .nil)
    .none .nil

/-- A name that stands for nothing, deep in the first summary. -/
theorem entryOfMarkup_brokenCode :
    '<' ∉ "&nbsp;".toList ∧ BreaksReference "&nbsp;".toList ∧
      codePlace.source "&nbsp;".toList =
        "<member name=\"P:A.Save\"><summary>Save<c>&nbsp;</c></summary></member>".toList ∧
      entryOfMarkup (.ofList (codePlace.source "&nbsp;".toList)) = none := by
  have hbroken : BreaksReference ([] ++ '&' :: "nbsp".toList ++ ';' :: []) :=
    breaksReference_unknown [] (by simp) rfl []
  have hraw : '<' ∉ "&nbsp;".toList := by decide
  exact ⟨hraw, hbroken, by decide +kernel,
    entryOfMarkup_brokenReference hraw hbroken codePlace []⟩

/-- An ampersand in remarks, and an entry all the same. -/
theorem entryOfMarkup_brokenRemarks :
    BreaksReference "a & b".toList ∧
      remarksPlace.source "a & b".toList =
        ("<member name=\"P:NS.Strings.X\"><summary>Hi</summary>".toList ++
          "<remarks>a & b</remarks></member>".toList) ∧
      entryOfMarkup (.ofList (remarksPlace.source "a & b".toList)) =
        some ⟨"P:NS.Strings.X", "Hi"⟩ := by
  have hother : '<' ∉ written (spell "a".toList) := lt_not_mem_written _
  refine ⟨breaksReference_bare "a ".toList (by decide), by decide +kernel, ?_⟩
  rw [entryOfMarkup_source_congr (by decide) hother rfl, ← Slot.source_fill, entryOfMarkup_source]
  decide

end ResourceAudit
