import ResourceAudit.Proofs.Xml.Slot
import ResourceAudit.Proofs.Xml.Truncation

/-!
# ResourceAudit.Proofs.Xml.Cut

Well-formed documents that break off.  A forest is cut between two of its parts or in
character data (`Forest.IsCut`), or else in a piece of markup, which cannot be read then
(`Forest.isCutOrFault_of_isPrefix`).  A cut between parts shows no fault: the reader delivers
the tags in front of it (`IsCut.filterMap_tag?`), and leaves every element open that
is around it (`IsCut.openAfter_readFrom`).  So an element of which anything is
missing leaves one more open than there were (`Forest.leavesOpen_of_prefix_element`).
-/

namespace ResourceAudit.Xml

open ResourceAudit.Text

/-! ## the tags of a document -/

/-- The tag that an event brings. -/
def Event.tag? : Event → Option Tag
  | .opened tag | .empty tag => some tag
  | _ => none

theorem filterMap_tag?_prependText (raw : List Char) (d : Document) :
    (d.prependText raw).events.filterMap Event.tag? = d.events.filterMap Event.tag? := by
  unfold Document.prependText
  split
  · rfl
  · split
    · next h => rw [h]; rfl
    · rfl

theorem filterMap_tag?_precede (events : List Event) (d : Document) :
    (d.precede events).events.filterMap Event.tag? =
      events.filterMap Event.tag? ++ d.events.filterMap Event.tag? := by
  induction events with
  | nil => rfl
  | cons event rest ih =>
    rw [Document.precede_cons]
    cases event with
    | text raw => exact (filterMap_tag?_prependText raw _).trans ih
    | «opened» tag | empty tag => exact congrArg (tag :: ·) ih
    | _ => exact ih

namespace Forest

theorem filterMap_tag?_events (f : Forest) :
    f.events.filterMap Event.tag? = f.tags.map WrittenTag.tag := by
  induction f with
  | nil => rfl
  | text _ _ ih | cdata _ _ ih | aside _ _ ih => exact ih
  | empty tag next ih => exact congrArg (tag.tag :: ·) ih
  | element tag content gap next ihContent ihNext =>
    have hinside : (content.events ++ .closed tag.name.chars :: next.events).filterMap Event.tag? =
        (content.tags ++ next.tags).map WrittenTag.tag := by
      rw [List.filterMap_append, ihContent, List.map_append]
      exact congrArg (_ ++ ·) ihNext
    exact congrArg (tag.tag :: ·) hinside

/-! ## cuts -/

/-- Being what is left of a forest that is cut between its parts or in character data,
behind the given tags and inside so many elements. -/
inductive IsCut : Forest → List Char → List WrittenTag → Nat → Prop where
  /-- Nothing is left. -/
  | before (f : Forest) : IsCut f [] [] 0
  /-- The cut is in character data. -/
  | text {ss : List Spelling} {raw : List Char} (next : Forest) (h : raw <+: written ss) :
    IsCut (.text ss next) raw [] 0
  /-- The cut is behind the first parts. -/
  | behind (first : Forest) {next : Forest} {u : List Char} {tags : List WrittenTag} {n : Nat}
    (h : IsCut next u tags n) :
    IsCut (first.append next) (first.source ++ u) (first.tags ++ tags) n
  /-- The cut is in an element. -/
  | inside (tag : WrittenTag) (gap : Gap) (next : Forest) {content : Forest} {u : List Char}
    {tags : List WrittenTag} {n : Nat} (h : IsCut content u tags n) :
    IsCut (.element tag content gap next) ('<' :: (tag.content ++ ['>'] ++ u)) (tag :: tags) (n + 1)

theorem tags_append (f g : Forest) : (f.append g).tags = f.tags ++ g.tags := by
  induction f with
  | nil => rfl
  | text _ _ ih | cdata _ _ ih | aside _ _ ih => exact ih
  | empty tag next ih => exact congrArg (tag :: ·) ih
  | element tag content gap next _ ih =>
    simp only [append, tags, ih, List.cons_append, List.append_assoc]

/-- What is read of a text behind the tag of an element. -/
theorem readFrom_inside (tag : WrittenTag) (u : List Char) (opened : List (List Char)) :
    readFrom opened ('<' :: (tag.content ++ ['>'] ++ u)) =
      (readFrom (tag.tag.name :: opened) u).cons (.opened tag.tag) := by
  rw [readFrom_bracket, readMarkup_opened (nextMarkup_opened tag u)]

/-- What is read of the front of character data. -/
theorem readFrom_of_prefix_written {ss : List Spelling} {raw : List Char} (h : raw <+: written ss)
    (opened : List (List Char)) :
    readFrom opened raw = Document.prependText raw ⟨[], none⟩ := by
  have hlt : '<' ∉ raw := fun hmem => lt_not_mem_written ss (h.subset hmem)
  have hread := readFrom_append opened hlt []
  rwa [List.append_nil, readFrom_nil] at hread

namespace IsCut

variable {f : Forest} {u : List Char} {tags : List WrittenTag} {n : Nat}

/-- The tags in front of a cut come first in the forest. -/
theorem tags_isPrefix (h : f.IsCut u tags n) : tags <+: f.tags := by
  induction h with
  | before | text => exact List.nil_prefix
  | behind first _ ih =>
    rw [tags_append]
    exact (List.prefix_append_right_inj first.tags).2 ih
  | inside tag gap next _ ih =>
    exact List.cons_prefix_cons.2 ⟨rfl, ih.trans (List.prefix_append _ _)⟩

theorem fault_readFrom (h : f.IsCut u tags n) (opened : List (List Char)) :
    (readFrom opened u).fault = none := by
  induction h generalizing opened with
  | before => rw [readFrom_nil]
  | text _ hraw => rw [readFrom_of_prefix_written hraw, Document.fault_prependText]
  | behind first _ ih => rw [readFrom_source, Document.fault_precede, ih]
  | inside tag _ _ _ ih =>
    rw [readFrom_inside]
    exact ih _

/-- The elements around a cut are open behind it. -/
theorem openAfter_readFrom (h : f.IsCut u tags n) (opened : List (List Char)) (k : Nat) :
    openAfter k (readFrom opened u).events = some (k + n) := by
  induction h generalizing opened k with
  | before =>
    rw [readFrom_nil]
    rfl
  | text _ hraw =>
    rw [readFrom_of_prefix_written hraw, openAfter_prependText]
    rfl
  | behind first _ ih =>
    rw [readFrom_source, openAfter_precede, first.openAfter_events, Option.bind_some, ih]
  | @inside tag _ _ _ _ _ n _ ih =>
    rw [readFrom_inside, Document.events_cons, openAfter, ih, Nat.add_right_comm, Nat.add_assoc]

/-- The tags in front of a cut are delivered. -/
theorem filterMap_tag? (h : f.IsCut u tags n) (opened : List (List Char)) :
    (readFrom opened u).events.filterMap Event.tag? = tags.map WrittenTag.tag := by
  induction h generalizing opened with
  | before =>
    rw [readFrom_nil]
    rfl
  | text _ hraw =>
    rw [readFrom_of_prefix_written hraw, filterMap_tag?_prependText]
    rfl
  | behind first _ ih =>
    rw [readFrom_source, filterMap_tag?_precede, first.filterMap_tag?_events, ih, List.map_append]
  | inside tag _ _ _ ih =>
    rw [readFrom_inside]
    exact congrArg (tag.tag :: ·) (ih _)

end IsCut

/-! ## fronts of forests -/

/-- What is left of a text: a cut, or a fault wherever it is read. -/
def IsCutOrFault (f : Forest) (u : List Char) : Prop :=
  (∃ tags n, f.IsCut u tags n) ∨ ∀ opened, (readFrom opened u).fault ≠ none

theorem isCutOrFault_before (f : Forest) : f.IsCutOrFault [] := .inl ⟨[], 0, .before f⟩

/-- Markup that cannot be read is a fault behind a forest, too. -/
theorem fault_readFrom_of_error {front : List Char} {fault : MarkupFault}
    (h : nextMarkup front = .error fault) (before : Forest) (opened : List (List Char)) :
    (readFrom opened (before.source ++ '<' :: front)).fault ≠ none := by
  rw [readFrom_source, Document.fault_precede, readFrom_of_error h]
  exact Option.some_ne_none fault

theorem IsCutOrFault.behind (first : Forest) {next : Forest} {u : List Char}
    (h : next.IsCutOrFault u) : (first.append next).IsCutOrFault (first.source ++ u) := by
  cases h with
  | inl hcut =>
    obtain ⟨tags, n, hcut⟩ := hcut
    exact .inl ⟨_, n, .behind first hcut⟩
  | inr hfault =>
    refine .inr fun opened => ?_
    rw [readFrom_source, Document.fault_precede]
    exact hfault opened

/-- A piece of markup in front of a forest, cut in it or behind it. -/
theorem isCutOrFault_markup (first : Forest) {next : Forest} {markup u : List Char} {event : Event}
    (hm : ∀ rest, nextMarkup (markup ++ rest) = .ok (.event event, rest))
    (hsource : first.source = '<' :: markup)
    (hnext : ∀ u, u <+: next.source → next.IsCutOrFault u)
    (h : u <+: '<' :: (markup ++ next.source)) : (first.append next).IsCutOrFault u := by
  cases cutMarkup_of_prefix hm h with
  | before => exact isCutOrFault_before _
  | inside herror => exact .inr (fault_readFrom_of_error herror nil)
  | @behind rest hrest =>
    have hbehind := (hnext rest hrest).behind first
    rwa [hsource] at hbehind

/-- What is left of an element that breaks off, in front of what comes next. -/
inductive ElementFront (tag : WrittenTag) (content : Forest) (gap : Gap) (s : List Char) :
    List Char → Prop where
  /-- Nothing is left. -/
  | before : ElementFront tag content gap s []
  /-- The markup of the element is cut. -/
  | fault {u : List Char} (h : ∀ opened, (readFrom opened u).fault ≠ none) :
    ElementFront tag content gap s u
  /-- The cut is in what the element holds. -/
  | inside {u : List Char} {tags : List WrittenTag} {n : Nat} (h : content.IsCut u tags n) :
    ElementFront tag content gap s ('<' :: (tag.content ++ ['>'] ++ u))
  /-- The text behind the element is cut, if anything. -/
  | behind {rest : List Char} (h : rest <+: s) :
    ElementFront tag content gap s ((element tag content gap nil).source ++ rest)

/-- An element that breaks off, if what it holds is cut between its parts or shows a fault. -/
theorem elementFront_of_isPrefix {tag : WrittenTag} {content next : Forest} {gap : Gap}
    {u : List Char} (hcontent : ∀ u, u <+: content.source → content.IsCutOrFault u)
    (h : u <+: (element tag content gap next).source) :
    ElementFront tag content gap next.source u := by
  have hinside : ∀ v, v <+: content.source →
      ElementFront tag content gap next.source ('<' :: (tag.content ++ ['>'] ++ v)) := by
    intro v hv
    cases hcontent v hv with
    | inl hcut =>
      obtain ⟨tags, n, hcut⟩ := hcut
      exact .inside hcut
    | inr hfault =>
      refine .fault fun opened => ?_
      rw [readFrom_inside]
      exact hfault _
  rw [source_element] at h
  cases cutMarkup_of_prefix (nextMarkup_opened tag) h with
  | before => exact .before
  | inside herror => exact .fault (fault_readFrom_of_error herror nil)
  | @behind v hv =>
    obtain hfront | ⟨tail, rfl, htail⟩ := prefix_append_cases hv
    · exact hinside v hfront
    · cases cutMarkup_of_prefix (nextMarkup_closing tag gap) htail with
      | before =>
        rw [List.append_nil]
        exact hinside _ List.prefix_rfl
      | inside herror =>
        refine .fault fun opened => ?_
        rw [readFrom_inside]
        exact fault_readFrom_of_error herror content _
      | @behind rest hrest =>
        have hsource : '<' :: (tag.content ++ ['>'] ++
            (content.source ++ '<' :: (tag.closing gap ++ rest))) =
              (element tag content gap nil).source ++ rest := by
          rw [source_element]
          simp only [source, List.append_nil, List.append_assoc, List.cons_append]
        rw [hsource]
        exact .behind hrest

/-- Whatever is left of a forest, it is cut between its parts or shows a fault. -/
theorem isCutOrFault_of_isPrefix (f : Forest) {u : List Char} (h : u <+: f.source) :
    f.IsCutOrFault u := by
  induction f generalizing u with
  | nil =>
    rw [List.prefix_nil.1 h]
    exact isCutOrFault_before nil
  | text ss next ih =>
    obtain hfront | ⟨rest, rfl, hrest⟩ := prefix_append_cases h
    · exact .inl ⟨[], 0, .text next hfront⟩
    · have hbehind := (ih hrest).behind (.text ss nil)
      rwa [source, source, List.append_nil] at hbehind
  | cdata s next ih =>
    exact isCutOrFault_markup (.cdata s nil) (nextMarkup_section s) (by simp [source])
      (fun _ hu => ih hu) h
  | aside a next ih =>
    exact isCutOrFault_markup (.aside a nil) (nextMarkup_aside a) (by simp [source])
      (fun _ hu => ih hu) h
  | empty tag next ih =>
    exact isCutOrFault_markup (.empty tag nil) (nextMarkup_empty tag) (by simp [source])
      (fun _ hu => ih hu) h
  | element tag content gap next ihContent ihNext =>
    cases elementFront_of_isPrefix (fun _ hu => ihContent hu) h with
    | before => exact isCutOrFault_before _
    | fault hfault => exact .inr hfault
    | inside hcut => exact .inl ⟨_, _, .inside tag gap next hcut⟩
    | behind hrest => exact (ihNext hrest).behind (.element tag content gap nil)

end Forest

/-- Where a front of a forest shows no fault, nothing is closed in it that it does not open. -/
theorem Forest.exists_openAfter_of_isPrefix (f : Forest) {u : List Char} (h : u <+: f.source)
    {opened : List (List Char)} (hfault : (readFrom opened u).fault = none) (k : Nat) :
    ∃ n, openAfter k (readFrom opened u).events = some n := by
  cases f.isCutOrFault_of_isPrefix h with
  | inl hcut =>
    obtain ⟨tags, n, hcut⟩ := hcut
    exact ⟨k + n, hcut.openAfter_readFrom opened k⟩
  | inr hnone => exact absurd hfault (hnone opened)

/-! ## elements that break off -/

/-- Leaving more elements open than there were before, unless there is a fault. -/
def Document.LeavesOpen (d : Document) : Prop :=
  d.fault = none → ∀ n m, openAfter n d.events = some m → n < m

theorem Document.LeavesOpen.precede {d : Document} (h : d.LeavesOpen) (f : Forest) :
    (d.precede f.events).LeavesOpen := by
  intro hfault n m hm
  rw [fault_precede] at hfault
  rw [openAfter_precede, f.openAfter_events, Option.bind_some] at hm
  exact h hfault n m hm

/-- A byte order mark opens and closes nothing. -/
theorem leavesOpen_ofText {s : List Char} (h : (readFrom [] s).LeavesOpen) :
    (Document.ofText s).LeavesOpen := by
  unfold Document.ofText
  split
  · next rest =>
    have hread := readFrom_append [] (show '<' ∉ ['\uFEFF'] by decide) rest
    rw [List.singleton_append] at hread
    intro hfault n m hm
    refine h ?_ n m ?_
    · rw [hread, Document.fault_prependText, hfault]
    · rw [hread, openAfter_prependText, hm]
  · exact h

/-- An element of which anything is missing is not closed. -/
theorem Forest.leavesOpen_of_prefix_element (opened : List (List Char)) {t : WrittenTag}
    {content : Forest} {gap : Gap} {u : List Char} (h : u <+: (element t content gap nil).source)
    (hne : u ≠ (element t content gap nil).source) :
    u = [] ∨ (readFrom opened u).LeavesOpen := by
  cases elementFront_of_isPrefix (fun _ hu => content.isCutOrFault_of_isPrefix hu) h with
  | before => exact .inl rfl
  | fault hfault => exact .inr fun hnone => absurd hnone (hfault opened)
  | inside hcut =>
    refine .inr fun _ n m hm => ?_
    rw [(hcut.inside t gap nil).openAfter_readFrom, Option.some.injEq] at hm
    omega
  | behind hrest =>
    rw [List.prefix_nil.1 hrest, List.append_nil] at hne
    exact absurd rfl hne

end ResourceAudit.Xml
