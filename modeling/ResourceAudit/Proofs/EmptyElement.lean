import ResourceAudit.Proofs.Documentation.Malformed
import ResourceAudit.Proofs.Project.Frames
import ResourceAudit.Proofs.Solution.Formats

/-!
# ResourceAudit.Proofs.EmptyElement

The two ways to write an element without content.  A reader of documentation or of a
solution is in the same state behind one tag `<x/>` and behind the two tags
`<x></x>`, whatever the document holds before (`Extraction.foldlM_step_full`,
`projectsOfEvents_full`).  So is the evaluator of project files, but for two
places in a `PropertyGroup` (`Evaluation.IsAt.foldlM_step_full`): an `Import` is
a property only if it is written as two tags, and an element in a group that is itself inside
a property ends the outer property only then.
-/

namespace ResourceAudit

open ResourceAudit.Text ResourceAudit.Xml

variable {before : Front} {tag : RawTag} {gap : Gap}

/-! ## documentation -/

/-- Outside the first summary no text is kept. -/
def Extraction.IsClear (x : Extraction) : Prop := x.depth = 0 → x.text = []

namespace Extraction

variable {x y : Extraction}

theorem IsClear.element (h : x.IsClear) {tag : Tag} (hy : x.element tag = some y) : y.IsClear := by
  unfold Extraction.element at hy
  split at hy
  · obtain ⟨name, -, hy⟩ := Option.bind_eq_some_iff.1 hy
    cases hy
    exact h
  · cases hy
    exact h

theorem IsClear.step (h : x.IsClear) {event : Event} (hy : x.step event = some y) : y.IsClear := by
  cases event with
  | «opened» tag =>
    rw [Extraction.step] at hy
    dsimp only at hy
    split at hy
    · cases hy
      exact fun hzero => absurd hzero (Nat.succ_ne_zero _)
    · split at hy
      · cases hy
        exact fun hzero => absurd hzero (Nat.succ_ne_zero _)
      · exact IsClear.element (x := { x with opened := x.opened + 1 }) h hy
  | empty tag =>
    rw [Extraction.step] at hy
    split at hy
    · cases hy
      exact h
    · split at hy
      · cases hy
        exact h
      · exact h.element hy
  | text raw =>
    rw [Extraction.step] at hy
    split at hy
    · next hdepth =>
      obtain ⟨text, -, hy⟩ := Option.bind_eq_some_iff.1 hy
      cases hy
      exact fun hzero => absurd hzero (Nat.ne_of_gt hdepth)
    · cases hy
      exact h
  | cdata text =>
    rw [Extraction.step, Option.some.injEq] at hy
    rw [← hy]
    split
    · next hdepth => exact fun hzero => absurd hzero (Nat.ne_of_gt hdepth)
    · exact h
  | closed name =>
    rw [Extraction.step] at hy
    split at hy
    · cases hy
    · dsimp only at hy
      split at hy
      · next hzero =>
        cases hy
        exact h
      · cases hy
        exact fun _ => rfl
      · next depth hone hdepth =>
        cases hy
        rintro rfl
        exact (hone rfl).elim
  | other =>
    cases hy
    exact h

theorem IsClear.foldlM_step (h : x.IsClear) {events : List Event}
    (hy : events.foldlM Extraction.step x = some y) : y.IsClear := by
  induction events generalizing x with
  | nil =>
    cases hy
    exact h
  | cons event rest ih =>
    obtain ⟨z, hz, hrest⟩ := Option.bind_eq_some_iff.1 hy
    exact ih (h.step hz) hrest

/-- One tag and two tags lead to the same. -/
theorem IsClear.foldlM_step_full (h : x.IsClear) (tag : RawTag) (gap : Gap) :
    (RawElement.full tag .none gap).events.foldlM Extraction.step x =
      (RawElement.empty tag).events.foldlM Extraction.step x := by
  obtain ⟨name, summary, opened, depth, text⟩ := x
  rw [RawElement.events_full_none, RawElement.events]
  simp only [List.foldlM_cons, List.foldlM_nil, bind_pure, Option.bind_eq_bind]
  cases depth with
  | succ depth => cases depth <;> rfl
  | zero =>
    obtain rfl : text = [] := h rfl
    simp only [Extraction.step, Extraction.beginsSummary]
    by_cases hsummary : (tag.tag.name == "summary".toList && summary.isNone) = true
    · simp only [Nat.lt_irrefl, if_false, hsummary, if_true]
      rfl
    · simp only [Nat.lt_irrefl, if_false, hsummary, Extraction.element]
      by_cases hmember : tag.tag.name = "member".toList ∧ name = none
      · simp only [if_pos hmember]
        cases nameAttribute? tag.tag <;> rfl
      · simp only [if_neg hmember]
        rfl

end Extraction

/-! ## solutions -/

/-- One tag and two tags list the same projects. -/
theorem projectsOfEvents_full (dir : Path) (before : List Event) (tag : RawTag) (gap : Gap)
    (after : List Event) :
    projectsOfEvents dir (before ++ (RawElement.full tag .none gap).events ++ after) =
      projectsOfEvents dir (before ++ (RawElement.empty tag).events ++ after) := by
  rw [RawElement.events_full_none]
  induction before with
  | nil => rfl
  | cons event rest ih =>
    cases event with
    | «opened» _ | empty _ =>
      rw [List.cons_append, List.cons_append, List.cons_append, List.cons_append, projectsOfEvents,
        projectsOfEvents, ih]
    | _ => exact ih

/-! ## project files -/

namespace Evaluation

/-- An element of a group of properties that is no import brings nothing by its tag, except the
property that it sets to nothing if it has no content. -/
theorem element_group {e : Evaluation} {tag : Tag} {frame : Frame}
    (hgroup : isInside e.frames "PropertyGroup" = true) (hname : frame.name ≠ "Import")
    (isEmpty : Bool) :
    e.element tag frame isEmpty = .ok { e with
      properties := if isEmpty && !frame.conditional then e.properties.set frame.name ""
        else e.properties } := by
  have hother : ∀ name, name ≠ "PropertyGroup" → isInside e.frames name = false := fun name hne => by
    rw [isInside_eq, beq_iff_eq] at hgroup
    rw [isInside_eq, hgroup, beq_eq_false_iff_ne, ne_eq, Option.some.injEq]
    exact hne.symm
  have hproject := hother "Project" (by decide)
  have hitems := hother "ItemGroup" (by decide)
  simp only [element, hgroup, hproject, hitems, bind, Except.bind, pure, Except.pure, hname,
    Bool.and_false, Bool.false_and, Bool.and_true, Bool.false_eq_true, if_false, beq_iff_eq]
  split_ifs <;> rfl

/-- One tag and two tags lead to the same, where a `PropertyGroup` around them is neither
inside a property nor meets an `Import`. -/
theorem IsAt.foldlM_step_full {e : Evaluation} {around : List Tag} (h : e.IsAt around)
    {tag : RawTag} (gap : Gap)
    (hplace : (elementNames around).head? = some "PropertyGroup" →
      tag.tag.localName ≠ "Import".toList ∧ isInProperty (elementNames around) = false) :
    (RawElement.full tag .none gap).events.foldlM Evaluation.step e =
      (RawElement.empty tag).events.foldlM Evaluation.step e := by
  rw [RawElement.events_full_none, RawElement.events]
  simp only [List.foldlM_cons, List.foldlM_nil, bind_pure]
  cases hroot : e.hasRoot with
  | false =>
    obtain rfl := h.around_eq_nil hroot
    have hframes : e.frames = [] := List.map_eq_nil_iff.1 h.names
    simp only [Evaluation.step, hroot, Bool.not_false, if_true]
    cases hread : e.root tag.tag with
    | error fault => rfl
    | ok read =>
      obtain ⟨y, frame⟩ := read
      obtain ⟨⟨sdkStyle, rfl⟩, -, -⟩ := eq_of_root hread
      simp [bind, Except.bind, pure, Except.pure, Evaluation.close, isInside, hframes]
  | true =>
    simp only [Evaluation.step, hroot, Bool.not_true, Bool.false_eq_true, if_false]
    cases hframe : frameOf e.frames tag.tag with
    | error fault => rfl
    | ok frame =>
      cases hgroup : isInside e.frames "PropertyGroup" with
      | false =>
        have hempty : e.element tag.tag frame true = e.element tag.tag frame false := by
          simp only [element, hgroup, Bool.and_false, Bool.false_and]
        simp only [bind, Except.bind, hempty]
        cases helement : e.element tag.tag frame false with
        | error fault => rfl
        | ok y =>
          obtain ⟨properties, sdkStyle, items, rfl, -⟩ := eq_of_element helement
          simp [pure, Except.pure, Evaluation.close, hgroup]
      | true =>
        have hhead := hgroup
        rw [h.isInside_frames, beq_iff_eq] at hhead
        obtain ⟨himport, hout⟩ := hplace hhead
        have hname : frame.name ≠ "Import" := fun himp => by
          rw [name_of_frameOf hframe] at himp
          exact himport (by rw [← himp, String.toList_ofList])
        have hvalue : e.properties.set frame.name (e.properties.expand (.ofList (trim []))) =
            e.properties.set frame.name "" := e.properties.assign_nil frame.name
        simp only [bind, Except.bind, pure, Except.pure, element_group hgroup hname,
          Evaluation.close, hgroup, Bool.false_and, Bool.true_and, Bool.false_eq_true, if_false,
          if_true, hvalue, h.property_eq_none hout]
        cases frame.conditional <;> rfl

end Evaluation

/-! ## documents -/

/-- An element without content may be written as one tag or as two, at any place of a document
and whatever comes behind it: documentation gives the same entry, a solution lists the
same projects, and a project file is evaluated to the same, with the same fault if there is
one, except in a `PropertyGroup` where the element is an `Import` or the group is inside a
property. -/
theorem emptyElement_spellings (before : Front) (tag : RawTag) (gap : Gap) (after : List Char) :
    entryOfMarkup
        (.ofList (before.chars ++ (RawElement.full tag .none gap).source ++ after)) =
      entryOfMarkup (.ofList (before.chars ++ (RawElement.empty tag).source ++ after)) ∧
    (∀ dir, projectsOfXml dir
        (.ofList (before.chars ++ (RawElement.full tag .none gap).source ++ after)) =
      projectsOfXml dir (.ofList (before.chars ++ (RawElement.empty tag).source ++ after))) ∧
    (((elementNames before.around).head? = some "PropertyGroup" →
        tag.tag.localName ≠ "Import".toList ∧
          isInProperty (elementNames before.around) = false) →
      ∀ reference toolchain, Project.ofText reference toolchain
          (.ofList (before.chars ++ (RawElement.full tag .none gap).source ++ after)) =
        Project.ofText reference toolchain
          (.ofList (before.chars ++ (RawElement.empty tag).source ++ after))) := by
  refine ⟨?_, fun dir => ?_, fun hplace reference toolchain => ?_⟩
  · simp only [entryOfMarkup_ofList, before.readFrom_element, Document.events_behind,
      Document.fault_behind, List.foldlM_append]
    cases hbefore : before.events.foldlM Extraction.step ⟨none, none, 0, 0, []⟩ with
    | none => rfl
    | some x =>
      have hclear : Extraction.IsClear ⟨none, none, 0, 0, []⟩ := fun _ => rfl
      have hx := hclear.foldlM_step hbefore
      simp only [Option.bind_eq_bind, Option.bind_some, hx.foldlM_step_full]
  · simp only [projectsOfXml_ofList, before.readFrom_element, Document.events_behind,
      Document.fault_behind, projectsOfEvents_full]
  · simp only [ofText_ofList, before.readFrom_element, Document.events_behind,
      Document.fault_behind, List.foldlM_append]
    cases hbefore : before.events.foldlM Evaluation.step (.start reference toolchain) with
    | error fault => rfl
    | ok x =>
      have hx : x.IsAt before.around :=
        (Evaluation.isAt_start reference toolchain).foldlM_step hbefore
      have hsame := hx.foldlM_step_full gap hplace
      simp only [bind, Except.bind, hsame]

/-- The front of a project file, up to a place in a group of properties. -/
def groupFront : Front where
  chars := "<Project><PropertyGroup><A>1</A>".toList
  fault_eq_none := by cbv

/-- A property without content, with a condition. -/
def conditionalTag : WrittenTag := ⟨.ofText "A", [conditionAttribute], .none⟩

/-- A property that is set to nothing under a condition. -/
theorem emptyElement_spellings_conditionalTag :
    ((elementNames groupFront.around).head? = some "PropertyGroup" ∧
      conditionalTag.raw.tag.localName ≠ "Import".toList ∧
      isInProperty (elementNames groupFront.around) = false) ∧
    Project.ofText ⟨"App", ⟨"/repo/App.csproj"⟩⟩ ⟨"/sdk"⟩
        (.ofList (groupFront.chars ++ (RawElement.full conditionalTag.raw .none .none).source ++
          "</PropertyGroup></Project>".toList)) =
      Project.ofText ⟨"App", ⟨"/repo/App.csproj"⟩⟩ ⟨"/sdk"⟩
        (.ofList (groupFront.chars ++ (RawElement.empty conditionalTag.raw).source ++
          "</PropertyGroup></Project>".toList)) := by
  have hgroup : (elementNames groupFront.around).head? = some "PropertyGroup" := by cbv
  have hname : conditionalTag.raw.tag.localName ≠ "Import".toList := by decide
  have hout : isInProperty (elementNames groupFront.around) = false := by cbv
  exact ⟨⟨hgroup, hname, hout⟩,
    (emptyElement_spellings groupFront conditionalTag.raw .none _).2.2
      (fun _ => ⟨hname, hout⟩) _ _⟩

/-- A property with a group of properties in its text. -/
def nestedProperty (inner : Forest) : Forest :=
  .plain "Project"
    (.plain "PropertyGroup"
      (.plain "TargetFramework"
        (.text (spell "net8.0".toList) (.plain "PropertyGroup" inner .nil)) .nil) .nil) .nil

def leafTag : WrittenTag := ⟨.ofText "B", [], .none⟩

/-- The property with one tag in the group. -/
def shortProperty : Forest := nestedProperty (.empty leafTag .nil)

/-- The property with two tags in the group. -/
def longProperty : Forest := nestedProperty (.element leafTag .nil .none .nil)

/-- In a group inside a property the two ways to write an element differ: as two tags it ends
the property around it as well, which is then not set. -/
theorem emptyElement_spellings_nestedProperty :
    String.ofList shortProperty.source =
      "<Project><PropertyGroup><TargetFramework>net8.0<PropertyGroup>" ++
        "<B/></PropertyGroup></TargetFramework></PropertyGroup></Project>" ∧
    String.ofList longProperty.source =
      "<Project><PropertyGroup><TargetFramework>net8.0<PropertyGroup>" ++
        "<B></B></PropertyGroup></TargetFramework></PropertyGroup></Project>" ∧
    (∀ o ∈ shortProperty.occurrences [], o.isChildOf "PropertyGroup" →
      o.tag.localName ≠ "Import".toList ∧ o.tag.localName ≠ "PropertyGroup".toList) ∧
    (Project.ofText ⟨"App", ⟨"/repo/App/App.csproj"⟩⟩ ⟨"/sdk"⟩
      (.ofList shortProperty.source)).toOption.map (·.targetFrameworks) = some ["net8.0"] ∧
    (Project.ofText ⟨"App", ⟨"/repo/App/App.csproj"⟩⟩ ⟨"/sdk"⟩
      (.ofList longProperty.source)).toOption.map (·.targetFrameworks) = some [] := by
  refine ⟨by cbv, by cbv, by decide, ?_, ?_⟩
  · rw [toOption_ofText_source]
    decide +kernel
  · rw [toOption_ofText_source]
    decide +kernel

end ResourceAudit
