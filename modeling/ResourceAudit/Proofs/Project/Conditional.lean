import ResourceAudit.Proofs.Project.Frames

/-!
# ResourceAudit.Proofs.Project.Conditional

Conditional content does not count.  Inside an element that has a condition, or
stands inside one that has, every frame is conditional, so that properties and items
stay as they are however deep the elements in it go (`IsHidden.step`,
`IsHidden.foldlM_step`).  Behind the element nothing is left of it but the style, if
it is not inside a property: a property that is opened in it is closed in it
(`IsAt.style_of_conditional`).  So a project file without the element means the same
properties, frameworks and items (`ofText_ignores_conditional`).
-/

namespace ResourceAudit

open ResourceAudit.Text ResourceAudit.Xml

/-! ## inside something conditional -/

theorem conditional_of_frameOf {frames : List Frame} {tag : Tag} {frame : Frame}
    (h : frameOf frames tag = .ok frame)
    (hwhy : frames.head?.any (·.conditional) = true ∨ hasAttribute tag "Condition" = .ok true) :
    frame.conditional = true := by
  rw [frameOf] at h
  split at h
  · cases h
    rfl
  · next hhead =>
    rw [hwhy.resolve_left hhead] at h
    cases h
    rfl

/-- Being inside something conditional, with so many elements open in it: what was known
in front of it stays, apart from the style and from what is collected. -/
structure Evaluation.IsHidden (base e : Evaluation) (depth : Nat) : Prop where
  properties : e.properties = base.properties
  items : e.items = base.items
  hasRoot : e.hasRoot = true
  frames : ∃ inner, e.frames = inner ++ base.frames ∧ inner.length = depth ∧
    ∀ frame ∈ inner, frame.conditional = true

namespace Evaluation.IsHidden

variable {base e y : Evaluation} {n m : Nat}

/-- What is inside something conditional is conditional. -/
theorem head?_conditional (h : IsHidden base e n)
    (hbase : base.frames.head?.any (·.conditional) = true) :
    e.frames.head?.any (·.conditional) = true := by
  obtain ⟨inner, hframes, -, hinner⟩ := h.frames
  rw [hframes]
  cases inner with
  | nil => exact hbase
  | cons frame inner => exact hinner frame List.mem_cons_self

theorem step (h : IsHidden base e n) (hbase : base.frames.head?.any (·.conditional) = true)
    {event : Event} (hstep : e.step event = .ok y) (hopen : openAfter n [event] = some m) :
    IsHidden base y m := by
  have hhead := h.head?_conditional hbase
  obtain ⟨hproperties, hitems, hroot, inner, hframes, hlength, hinner⟩ := h
  cases event with
  | «opened» tag =>
    obtain ⟨frame, hmore, hroot', hframe, -, hsame⟩ := of_step_opened hstep
    have hconditional := conditional_of_frameOf (hframe (.inl hroot)) (.inl hhead)
    obtain ⟨hp, hi⟩ := hsame hroot hconditional
    cases hopen
    refine ⟨hp.trans hproperties, hi.trans hitems, hroot', frame :: inner, ?_, ?_, ?_⟩
    · rw [hmore, hframes, List.cons_append]
    · rw [List.length_cons, hlength]
    · exact List.forall_mem_cons.2 ⟨hconditional, hinner⟩
  | empty tag =>
    obtain ⟨properties, sdkStyle, items, rfl, hsame⟩ := of_step_empty hstep
    obtain ⟨frame, hframe, hsame⟩ := hsame hroot
    obtain ⟨rfl, rfl⟩ := hsame (conditional_of_frameOf hframe (.inl hhead))
    cases hopen
    exact ⟨hproperties, hitems, rfl, inner, hframes, hlength, hinner⟩
  | closed name =>
    rw [openAfter] at hopen
    split at hopen
    · cases hopen
    · next hne =>
      cases hopen
      cases inner with
      | nil => exact absurd hlength.symm hne
      | cons frame inner =>
        obtain ⟨hconditional, hrest⟩ := List.forall_mem_cons.1 hinner
        obtain ⟨properties, hclose, hsame⟩ := close_eq hframes
        cases hstep
        rw [hclose, hsame hconditional]
        exact ⟨hproperties, hitems, hroot, inner, rfl, by rw [← hlength]; rfl, hrest⟩
  | text raw =>
    obtain ⟨text, rfl⟩ := exists_addText_of_step_text hstep
    cases hopen
    exact ⟨hproperties, hitems, hroot, inner, hframes, hlength, hinner⟩
  | cdata text =>
    cases hstep
    cases hopen
    exact ⟨hproperties, hitems, hroot, inner, hframes, hlength, hinner⟩
  | other =>
    cases hstep
    cases hopen
    exact ⟨hproperties, hitems, hroot, inner, hframes, hlength, hinner⟩

theorem foldlM_step (hbase : base.frames.head?.any (·.conditional) = true)
    (hroot : base.hasRoot = true) {events : List Event} (hopen : openAfter 0 events = some n)
    (hrun : events.foldlM Evaluation.step base = .ok y) : IsHidden base y n := by
  refine foldlM_invariant (I := fun done e => ∀ n, openAfter 0 done = some n → IsHidden base e n)
    ?_ ?_ hrun n hopen
  · intro n hn
    cases hn
    exact ⟨rfl, rfl, hroot, [], rfl, rfl, by simp⟩
  · intro done x event z hx hz n hn
    rw [openAfter_append] at hn
    obtain ⟨k, hk, hn⟩ := Option.bind_eq_some_iff.1 hn
    exact (hx k hk).step hbase hz hn

end Evaluation.IsHidden

namespace Evaluation.IsAt

variable {e y : Evaluation} {around : List Tag} {tag : Tag}

/-- An element without content that is conditional says no more than the style. -/
theorem style_of_conditional_empty (hroot : e.hasRoot = true)
    (hwhy : e.frames.head?.any (·.conditional) = true ∨ hasAttribute tag "Condition" = .ok true)
    (h : e.step (.empty tag) = .ok y) : ∃ style, y = { e with sdkStyle := style } := by
  obtain ⟨properties, sdkStyle, items, rfl, hsame⟩ := of_step_empty h
  obtain ⟨frame, hframe, hsame⟩ := hsame hroot
  obtain ⟨rfl, rfl⟩ := hsame (conditional_of_frameOf hframe hwhy)
  exact ⟨sdkStyle, by rw [← hroot]⟩

/-- And so does one with content, wherever no property is open: a property that is opened
in it is closed in it. -/
theorem style_of_conditional (hat : e.IsAt around) (hroot : e.hasRoot = true)
    (hplace : isInProperty (elementNames around) = false)
    (hwhy : e.frames.head?.any (·.conditional) = true ∨ hasAttribute tag "Condition" = .ok true)
    {content : List Event} (hcontent : openAfter 0 content = some 0) {name : List Char}
    (h : (.opened tag :: (content ++ [.closed name])).foldlM Evaluation.step e = .ok y) :
    ∃ style, y = { e with sdkStyle := style } := by
  rw [List.foldlM_cons] at h
  obtain ⟨inside, hopened, h⟩ := exists_of_bind_eq_ok h
  rw [List.foldlM_append] at h
  obtain ⟨last, hrun, hclosed⟩ := exists_of_bind_eq_ok h
  obtain ⟨frame, hframes, hroot', hframe, -, hsame⟩ := of_step_opened hopened
  have hconditional := conditional_of_frameOf (hframe (.inl hroot)) hwhy
  have hinside : inside.frames.head?.any (·.conditional) = true := by
    rw [hframes]
    exact hconditional
  obtain ⟨hproperties, hitems, hlastRoot, inner, hlast, hlength, -⟩ :=
    IsHidden.foldlM_step hinside hroot' hcontent hrun
  obtain rfl := List.eq_nil_of_length_eq_zero hlength
  have hatLast := (hat.step hopened).foldlM_step hrun
  rw [openTags_of_balanced hcontent] at hatLast
  obtain ⟨properties, hclose, hsame'⟩ := close_eq (hlast.trans hframes)
  have hy : last.close = y := by
    cases hclosed
    rfl
  have hproperty : (if isInside e.frames "PropertyGroup" then none else last.property) =
      e.property := by
    rw [hat.property_eq_none hplace]
    split
    · rfl
    · next hgroup =>
      refine hatLast.property_eq_none ?_
      rw [hat.isInside_frames] at hgroup
      change (_ || isInProperty (elementNames around)) = false
      rw [hplace, Bool.or_false]
      exact Bool.eq_false_iff.2 hgroup
  obtain ⟨hopenedProperties, hopenedItems⟩ := hsame hroot hconditional
  rw [← hy, hclose, hproperty, hsame' hconditional, hproperties, hopenedProperties]
  exact ⟨last.sdkStyle, by rw [hitems, hopenedItems, hlastRoot, hroot]⟩

end Evaluation.IsAt

/-! ## files without a conditional element -/

/-- An element that is conditional, as it is written. -/
theorem Evaluation.IsAt.style_of_conditional_source {e y : Evaluation} {around : List Tag}
    (hat : e.IsAt around) (hroot : around ≠ [])
    (hplace : isInProperty (elementNames around) = false) {element : RawElement}
    (hcondition : hasAttribute element.tag.tag "Condition" = .ok true)
    (h : element.events.foldlM Evaluation.step e = .ok y) :
    ∃ style, y = { e with sdkStyle := style } := by
  have hroot' : e.hasRoot = true := hat.hasRoot_of_ne_nil hroot
  cases element with
  | empty tag =>
    simp only [RawElement.events, List.foldlM_cons, List.foldlM_nil, bind_pure] at h
    exact style_of_conditional_empty hroot' (.inr hcondition) h
  | full tag content gap =>
    exact hat.style_of_conditional hroot' hplace (.inr hcondition) content.balanced h

/-- What is looked at behind a file does not depend on the style. -/
theorem Evaluation.finish_style {e : Evaluation} {reference : ProjectReference}
    {fault : Option MarkupFault} {p : Project} (h : e.finish reference fault = .ok p) (style : Bool) :
    Evaluation.finish { e with sdkStyle := style } reference fault =
      .ok { p with sdkStyle := style } := by
  cases fault with
  | some fault => cases h
  | none =>
    simp only [finish] at h ⊢
    split_ifs at h ⊢
    cases h
    rfl

/-- Character data that leaves no property open is not collected. -/
theorem eq_of_step_text {e y : Evaluation} {raw : List Char} (h : e.step (.text raw) = .ok y)
    (hy : y.property = none) : e = y := by
  obtain ⟨text, rfl⟩ := Evaluation.exists_addText_of_step_text h
  have he : e.property = none := by simpa [Evaluation.addText] using hy
  rw [step_text_of_none he] at h
  exact Except.ok.inj h

/-- A project file that is evaluated with an element that has a condition, and is neither the
root nor inside a child of a `PropertyGroup`, is evaluated without it as well, and
to the same properties, frameworks and items, whatever the element holds. -/
theorem ofText_ignores_conditional (reference : ProjectReference) (toolchain : Path)
    (before : Front) (element : RawElement) (after : List Char) {p : Project}
    (hroot : before.around ≠ []) (hplace : isInProperty (elementNames before.around) = false)
    (hcondition : hasAttribute element.tag.tag "Condition" = .ok true)
    (h : Project.ofText reference toolchain
      (.ofList (before.chars ++ element.source ++ after)) = .ok p) :
    ∃ q, Project.ofText reference toolchain (.ofList (before.chars ++ after)) = .ok q ∧
      q.properties = p.properties ∧ q.targetFrameworks = p.targetFrameworks ∧
      q.items = p.items := by
  rw [ofText_ofList, before.readFrom_element, Document.events_behind, Document.fault_behind,
    List.foldlM_append, List.foldlM_append] at h
  obtain ⟨z, hrun, hfinish⟩ := exists_of_bind_eq_ok h
  obtain ⟨y, hrun, hafter⟩ := exists_of_bind_eq_ok hrun
  obtain ⟨x, hbefore, helement⟩ := exists_of_bind_eq_ok hrun
  have hat : x.IsAt before.around :=
    (Evaluation.isAt_start reference toolchain).foldlM_step hbefore
  obtain ⟨style, rfl⟩ := hat.style_of_conditional_source hroot hplace hcondition helement
  obtain ⟨style', hafter⟩ := Evaluation.foldlM_step_style x.sdkStyle hafter
  have hproperty := hat.property_eq_none hplace
  have hwithout : (readFrom [] (before.chars ++ after)).events.foldlM Evaluation.step
      (.start reference toolchain) = .ok { z with sdkStyle := style' } := by
    rw [before.foldlM_append hbefore (step_text_of_none hproperty)
      (fun _ _ htext => eq_of_step_text htext hproperty)]
    exact hafter
  refine ⟨{ p with sdkStyle := style' }, ?_, rfl, rfl, rfl⟩
  rw [ofText_ofList, hwithout, before.fault_readFrom_append]
  exact Evaluation.finish_style hfinish style'

/-- The front of a project file, up to a place in a `Choose`. -/
def chooseFront : Front where
  chars := "<Project><PropertyGroup><TargetFramework>net8.0</TargetFramework></PropertyGroup><Choose>".toList
  fault_eq_none := by cbv

/-- Another framework. -/
def frameworkGroup (framework : String) (next : Forest) : Forest :=
  .plain "PropertyGroup"
    (.plain "TargetFramework" (.text (spell framework.toList) .nil) .nil) next

def whenTag : WrittenTag := ⟨.ofText "When", [conditionAttribute], .none⟩

def whenElement : RawElement := .full whenTag.raw (.ofForest (frameworkGroup "net6.0" .nil)) .none

/-- The whole file. -/
def chooseProject : Forest :=
  .plain "Project"
    (frameworkGroup "net8.0" <|
      .plain "Choose" (.element whenTag (frameworkGroup "net6.0" .nil) .none .nil) .nil) .nil

/-- A branch with a condition is left out, with the group in it. -/
theorem ofText_ignores_conditional_whenElement :
    chooseFront.around ≠ [] ∧ isInProperty (elementNames chooseFront.around) = false ∧
    hasAttribute whenElement.tag.tag "Condition" = .ok true ∧
    ∃ p, Project.ofText ⟨"App", ⟨"/repo/App.csproj"⟩⟩ ⟨"/sdk"⟩
        (.ofList (chooseFront.chars ++ whenElement.source ++ "</Choose></Project>".toList)) = .ok p ∧
      ∃ q, Project.ofText ⟨"App", ⟨"/repo/App.csproj"⟩⟩ ⟨"/sdk"⟩
          (.ofList (chooseFront.chars ++ "</Choose></Project>".toList)) = .ok q ∧
        q.properties = p.properties ∧ q.targetFrameworks = p.targetFrameworks ∧
        q.items = p.items := by
  have hdepth : chooseFront.around.length = 2 := by cbv
  have hroot : chooseFront.around ≠ [] := List.ne_nil_of_length_eq_add_one hdepth
  have hplace : isInProperty (elementNames chooseFront.around) = false := by cbv
  have hcondition : hasAttribute whenElement.tag.tag "Condition" = .ok true :=
    (hasAttribute_tag whenTag "Condition").trans (by decide)
  have hsource : chooseFront.chars ++ whenElement.source ++ "</Choose></Project>".toList =
      chooseProject.source := by decide +kernel
  have hread := ofText_source ⟨"App", ⟨"/repo/App.csproj"⟩⟩ ⟨"/sdk"⟩ (f := chooseProject)
    ⟨by decide, by decide, by decide⟩
  rw [← hsource] at hread
  exact ⟨hroot, hplace, hcondition, _, hread, ofText_ignores_conditional _ _ chooseFront
    whenElement _ hroot hplace hcondition hread⟩

end ResourceAudit
