import ResourceAudit.Proofs.Text.Trim
import ResourceAudit.Proofs.Xml.Element
import ResourceAudit.Resource.Reading

/-!
# ResourceAudit.Proofs.Resource.Meaning

What documentation means as a tree.  The reader goes through it once, with two
counters and what it has found so far; the tree says at once which element is
the first summary, what it holds and which members are outside it
(`Forest.memberName`, `Forest.summaryText`).

The induction on the forest has two parts.  Inside the first summary the reader
collects the text and comes back to the depth at which it was
(`foldlM_step_inside`).  Outside it the reader keeps no text and depth zero; as
long as there is no summary the members that count are those of the forest
without its first summary, afterwards all of them (`foldlM_step_outside`,
`foldlM_step_behind`).
-/

namespace ResourceAudit

open ResourceAudit.Text ResourceAudit.Xml

/-! ## the tree -/

/-- The value of an attribute, empty without the attribute. -/
def valueOf (key : String) (t : WrittenTag) : List Char := (t.value? key).getD []

/-- The name attribute of the first `member` element among elements. -/
def memberName? (ts : List WrittenTag) : Option (List Char) :=
  (ts.find? fun t => t.name.chars = "member".toList).map (valueOf "name")

namespace Xml.Forest

/-- The first summary as its text. -/
def summary? (f : Forest) : Option (List Char) := (f.first? "summary".toList).map innerText

/-- The name attribute of the first member that is not inside the first summary,
empty without such a member. -/
def memberName (f : Forest) : List Char :=
  (memberName? (f.withoutFirst "summary".toList).tags).getD []

/-- The text of everything inside the first summary, empty without a summary. -/
def summaryText (f : Forest) : List Char := f.summary?.getD []

end Xml.Forest

/-- The name attribute of an element that is a member. -/
def memberOf? (t : WrittenTag) : Option (List Char) :=
  if t.name.chars = "member".toList then some (valueOf "name" t) else none

theorem memberName?_cons (t : WrittenTag) (us : List WrittenTag) :
    memberName? (t :: us) = (memberOf? t).or (memberName? us) := by
  unfold memberName? memberOf?
  split
  · next h =>
    rw [List.find?_cons_of_pos (by exact decide_eq_true h)]
    rfl
  · next h =>
    rw [List.find?_cons_of_neg (by exact fun ht => h (of_decide_eq_true ht))]
    rfl

theorem memberName?_append (ts us : List WrittenTag) :
    memberName? (ts ++ us) = (memberName? ts).or (memberName? us) := by
  rw [memberName?, List.find?_append, Option.map_or]
  rfl

/-! ## one part -/

theorem nameAttribute?_tag (t : WrittenTag) : nameAttribute? t.tag = some (valueOf "name" t) := by
  rw [nameAttribute?, WrittenTag.attribute?_tag, valueOf, WrittenTag.value?]
  cases t.find? "name" with
  | none => rfl
  | some a =>
    rw [Option.map_some, Option.map_some]
    dsimp only
    rw [WrittenAttribute.rawValue_toAttribute, expand_written]
    rfl

/-- An element outside the first summary gives the name if it is the first
member. -/
theorem Extraction.element_tag (x : Extraction) (t : WrittenTag) :
    x.element t.tag = some { x with name := x.name.or (memberOf? t) } := by
  rw [element, WrittenTag.name_tag, nameAttribute?_tag, memberOf?]
  by_cases hmember : t.name.chars = "member".toList
  · cases hx : x.name with
    | none =>
      rw [if_pos ⟨hmember, rfl⟩, if_pos hmember]
      rfl
    | some name =>
      rw [if_neg (by simp), Option.some_or, ← hx]
  · rw [if_neg fun h => hmember h.1, if_neg hmember, Option.or_none]

theorem Extraction.beginsSummary_tag (x : Extraction) (t : WrittenTag) :
    x.beginsSummary t.tag = true ↔ t.name.chars = "summary".toList ∧ x.summary = none := by
  rw [beginsSummary, WrittenTag.name_tag, Bool.and_eq_true, beq_iff_eq, Option.isNone_iff_eq_none]

/-- The reader takes character data piece by piece. -/
theorem takesPieces_step : TakesPieces Extraction.step := by
  constructor
  · intro x
    rw [Extraction.step]
    split
    · have hnil : expand [] = .ok [] := expand_written []
      simp [hnil, Except.toOption]
    · rfl
  · intro x ss more
    simp only [Extraction.step]
    by_cases hdepth : 0 < x.depth
    · have hss : (expand (written ss)).toOption = some (meant ss) := by rw [expand_written]; rfl
      simp only [if_pos hdepth, expand_written_append, hss]
      cases (expand more).toOption with
      | none => simp [hdepth]
      | some others => simp [hdepth]
    · simp only [if_neg hdepth, Option.bind_some]

/-! ## inside the first summary -/

theorem step_opened_inside (name summary : Option (List Char)) (opened depth : Nat)
    (text : List Char) (tag : Tag) :
    Extraction.step ⟨name, summary, opened, depth + 1, text⟩ (.opened tag) =
      some ⟨name, summary, opened + 1, depth + 2, text⟩ := by
  rw [Extraction.step]
  dsimp only
  rw [if_pos (Nat.succ_pos depth)]

theorem step_closed_inside (name summary : Option (List Char)) (opened depth : Nat)
    (text closed : List Char) :
    Extraction.step ⟨name, summary, opened + 1, depth + 2, text⟩ (.closed closed) =
      some ⟨name, summary, opened, depth + 1, text⟩ := by
  rw [Extraction.step]
  dsimp only
  rw [if_neg (Nat.succ_ne_zero opened)]
  rfl

/-- Inside the first summary a forest adds its text and changes nothing else. -/
theorem foldlM_step_inside (f : Forest) (name summary : Option (List Char)) (opened depth : Nat)
    (text : List Char) :
    f.events.foldlM Extraction.step ⟨name, summary, opened, depth + 1, text⟩ =
      some ⟨name, summary, opened, depth + 1, text ++ f.innerText⟩ := by
  induction f generalizing opened depth text with
  | nil => simp [Forest.events, Forest.innerText]
  | text ss next ih =>
    have hss : (expand (written ss)).toOption = some (meant ss) := by rw [expand_written]; rfl
    have hstep : Extraction.step ⟨name, summary, opened, depth + 1, text⟩ (.text (written ss)) =
        some ⟨name, summary, opened, depth + 1, text ++ meant ss⟩ := by
      rw [Extraction.step, if_pos (Nat.succ_pos depth), hss]
      rfl
    rw [Forest.events, List.foldlM_cons, hstep, Forest.innerText, ← List.append_assoc]
    exact ih opened depth (text ++ meant ss)
  | cdata s next ih =>
    have hstep : Extraction.step ⟨name, summary, opened, depth + 1, text⟩ (.cdata s.chars) =
        some ⟨name, summary, opened, depth + 1, text ++ s.chars⟩ := by
      rw [Extraction.step, if_pos (Nat.succ_pos depth)]
    rw [Forest.events, List.foldlM_cons, hstep, Forest.innerText, ← List.append_assoc]
    exact ih opened depth (text ++ s.chars)
  | aside a next ih => exact ih opened depth text
  | empty tag next ih =>
    have hstep : Extraction.step ⟨name, summary, opened, depth + 1, text⟩ (.empty tag.tag) =
        some ⟨name, summary, opened, depth + 1, text⟩ := by
      rw [Extraction.step, if_pos (Nat.succ_pos depth)]
    rw [Forest.events, List.foldlM_cons, hstep]
    exact ih opened depth text
  | element tag content gap next ihContent ihNext =>
    have hcontent := ihContent (opened + 1) (depth + 1) text
    rw [Forest.foldlM_element (step_opened_inside ..) hcontent (step_closed_inside ..), ihNext,
      Forest.innerText, List.append_assoc]

/-! ## outside the first summary -/

theorem step_opened_outside (name summary : Option (List Char)) (opened : Nat) (t : WrittenTag) :
    Extraction.step ⟨name, summary, opened, 0, []⟩ (.opened t.tag) =
      if t.name.chars = "summary".toList ∧ summary = none then
        some ⟨name, summary, opened + 1, 1, []⟩
      else some ⟨name.or (memberOf? t), summary, opened + 1, 0, []⟩ := by
  rw [Extraction.step]
  dsimp only
  rw [if_neg (Nat.lt_irrefl 0), Extraction.element_tag]
  exact if_congr (Extraction.beginsSummary_tag _ t) rfl rfl

theorem step_empty_outside (name summary : Option (List Char)) (opened : Nat) (t : WrittenTag) :
    Extraction.step ⟨name, summary, opened, 0, []⟩ (.empty t.tag) =
      if t.name.chars = "summary".toList ∧ summary = none then some ⟨name, some [], opened, 0, []⟩
      else some ⟨name.or (memberOf? t), summary, opened, 0, []⟩ := by
  rw [Extraction.step]
  dsimp only
  rw [if_neg (Nat.lt_irrefl 0), Extraction.element_tag]
  exact if_congr (Extraction.beginsSummary_tag _ t) rfl rfl

theorem step_closed_outside (name summary : Option (List Char)) (opened : Nat)
    (closed : List Char) :
    Extraction.step ⟨name, summary, opened + 1, 0, []⟩ (.closed closed) =
      some ⟨name, summary, opened, 0, []⟩ := by
  rw [Extraction.step]
  dsimp only
  rw [if_neg (Nat.succ_ne_zero opened)]
  rfl

/-- The end of the first summary. -/
theorem step_closed_summary (name summary : Option (List Char)) (opened : Nat)
    (text closed : List Char) :
    Extraction.step ⟨name, summary, opened + 1, 1, text⟩ (.closed closed) =
      some ⟨name, some text, opened, 0, []⟩ := by
  rw [Extraction.step]
  dsimp only
  rw [if_neg (Nat.succ_ne_zero opened)]
  rfl

/-- Behind the first summary a forest gives the name if there is none yet. -/
theorem foldlM_step_behind (f : Forest) (name : Option (List Char)) (summary : List Char)
    (opened : Nat) :
    f.events.foldlM Extraction.step ⟨name, some summary, opened, 0, []⟩ =
      some ⟨name.or (memberName? f.tags), some summary, opened, 0, []⟩ := by
  induction f generalizing name opened with
  | nil =>
    rw [Forest.tags, show memberName? [] = none from rfl, Option.or_none]
    rfl
  | text ss next ih => exact ih name opened
  | cdata s next ih => exact ih name opened
  | aside a next ih => exact ih name opened
  | empty tag next ih =>
    rw [Forest.events, List.foldlM_cons, step_empty_outside, if_neg (by simp),
      Option.bind_eq_bind, Option.bind_some, ih, Forest.tags, memberName?_cons, Option.or_assoc]
  | element tag content gap next ihContent ihNext =>
    have hopened := step_opened_outside name (some summary) opened tag
    rw [if_neg (by simp)] at hopened
    rw [Forest.foldlM_element hopened (ihContent ..) (step_closed_outside ..), ihNext, Forest.tags,
      List.cons_append, memberName?_cons, memberName?_append, Option.or_assoc, Option.or_assoc]

/-- Where there was no summary yet a forest gives its first one, and the name of
the first member outside that one if there is none yet. -/
theorem foldlM_step_outside (f : Forest) (name : Option (List Char)) (opened : Nat) :
    f.events.foldlM Extraction.step ⟨name, none, opened, 0, []⟩ =
      some ⟨name.or (memberName? (f.withoutFirst "summary".toList).tags), f.summary?, opened, 0,
        []⟩ := by
  induction f generalizing name opened with
  | nil =>
    rw [Forest.withoutFirst, Forest.tags, show memberName? [] = none from rfl, Option.or_none]
    rfl
  | text ss next ih => exact ih name opened
  | cdata s next ih => exact ih name opened
  | aside a next ih => exact ih name opened
  | empty tag next ih =>
    rw [Forest.events, List.foldlM_cons, step_empty_outside, Forest.summary?, Forest.first?,
      Forest.withoutFirst]
    by_cases h : tag.name.chars = "summary".toList
    · rw [if_pos ⟨h, rfl⟩, if_pos h, if_pos h]
      exact foldlM_step_behind next name [] opened
    · rw [if_neg fun hs => h hs.1, if_neg h, if_neg h, Forest.tags, memberName?_cons,
        ← Option.or_assoc]
      exact ih _ opened
  | element tag content gap next ihContent ihNext =>
    have hopened := step_opened_outside name none opened tag
    rw [Forest.summary?, Forest.first?, Forest.withoutFirst]
    by_cases h : tag.name.chars = "summary".toList
    · rw [if_pos ⟨h, rfl⟩] at hopened
      rw [Forest.foldlM_element hopened (foldlM_step_inside ..) (step_closed_summary ..), if_pos h,
        if_pos h]
      exact foldlM_step_behind next name content.innerText opened
    · rw [if_neg fun hs => h hs.1] at hopened
      rw [Forest.foldlM_element hopened (ihContent ..) (step_closed_outside ..), if_neg h, if_neg h,
        Forest.summary?]
      -- the first summary is inside the element, or behind it if anywhere
      cases hcontent : content.first? "summary".toList with
      | none =>
        rw [Option.map_none, ihNext, Forest.withoutFirst_of_first?_eq_none hcontent,
          Option.isSome_none, if_neg Bool.false_ne_true, Forest.tags, List.cons_append,
          memberName?_cons, memberName?_append, Option.or_assoc, Option.or_assoc, Option.none_or]
        rfl
      | some inner =>
        rw [Option.map_some, foldlM_step_behind, Option.isSome_some, if_pos rfl, Forest.tags,
          List.cons_append, memberName?_cons, memberName?_append, Option.or_assoc,
          Option.or_assoc, Option.some_or]
        rfl

/-! ## the entry -/

/-- The name and the value that a forest documents, if blank or not. -/
def Xml.Forest.entry (f : Forest) : Entry :=
  ⟨.ofList (trim f.memberName), .ofList (joinLines f.summaryText)⟩

/-- The state of the reader at the end of a forest. -/
theorem foldlM_step_source (f : Forest) :
    (Document.ofText f.source).events.foldlM Extraction.step ⟨none, none, 0, 0, []⟩ =
      some ⟨memberName? (f.withoutFirst "summary".toList).tags, f.summary?, 0, 0, []⟩ := by
  rw [Forest.foldlM_ofText_source takesPieces_step (fun _ => rfl), foldlM_step_outside,
    Option.none_or]

/-- What is found at the end, unless it is blank: without a member or without a
summary it is. -/
theorem toEntry_source (f : Forest) :
    Extraction.toEntry ⟨memberName? (f.withoutFirst "summary".toList).tags, f.summary?, 0, 0, []⟩ =
      if f.entry.isBlank then none else some f.entry := by
  rw [Forest.entry, Forest.memberName, Forest.summaryText, Extraction.toEntry_eq, if_pos rfl]
  cases memberName? (f.withoutFirst "summary".toList).tags with
  | none =>
    have hblank : ∀ value, Entry.isBlank ⟨.ofList (trim []), value⟩ = true := fun _ => rfl
    rw [Option.getD_none, if_pos (hblank _)]
    rfl
  | some name =>
    cases f.summary? with
    | none =>
      have hblank : Entry.isBlank ⟨.ofList (trim name), .ofList (joinLines [])⟩ = true := by
        rw [Entry.isBlank, Bool.or_eq_true]
        exact .inr rfl
      rw [Option.getD_none, Option.getD_some, if_pos hblank]
      rfl
    | some summary => rfl

/-- The text of a forest documents the entry of the forest unless that is
blank. -/
theorem entryOfMarkup_source (f : Forest) :
    entryOfMarkup (.ofList f.source) = if f.entry.isBlank then none else some f.entry := by
  rw [← toEntry_source, entryOfMarkup, String.toList_ofList, foldlM_step_source,
    Forest.fault_ofText_source]
  rfl

/-- Reading computes what a forest means as a tree: there is an entry if and
only if neither the name of the first member outside the first summary nor the
text of that summary is blank, and then it consists of these. -/
theorem entryOfMarkup_source_eq_some (f : Forest) (e : Entry) :
    entryOfMarkup (.ofList f.source) = some e ↔
      isBlankText (trim f.memberName) = false ∧ isBlankText (joinLines f.summaryText) = false ∧
        e = ⟨.ofList (trim f.memberName), .ofList (joinLines f.summaryText)⟩ := by
  have hblank : f.entry.isBlank =
      (isBlankText (trim f.memberName) || isBlankText (joinLines f.summaryText)) := by
    rw [Forest.entry, Entry.isBlank, String.toList_ofList, String.toList_ofList]
  rw [entryOfMarkup_source, hblank, ← and_assoc, ← Bool.or_eq_false_iff]
  cases isBlankText (trim f.memberName) || isBlankText (joinLines f.summaryText) with
  | true => simp
  | false => rw [if_neg Bool.false_ne_true, Option.some.injEq, and_iff_right rfl, eq_comm,
      Forest.entry]

end ResourceAudit
