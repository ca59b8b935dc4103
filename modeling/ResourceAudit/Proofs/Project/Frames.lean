import ResourceAudit.Proofs.Project.Evaluation
import ResourceAudit.Proofs.Xml.Front

/-!
# ResourceAudit.Proofs.Project.Frames

What the evaluator knows in the middle of a project file.  Whatever has been read,
the frames are those of the open elements, nothing is open before the root, and a
property is collected inside a child of a `PropertyGroup` only (`IsAt`): a step
keeps that (`IsAt.step`), and so does a run (`IsAt.foldlM_step`).

The style of the project is written and never looked at: whatever it is so far, the
rest is evaluated the same (`foldlM_step_style`).

Evaluating a file is going through its parts from `Evaluation.start` on and then
looking whether all is there (`Evaluation.finish`).  So two files mean the same where
what is read of them leads the evaluator to the same state.
-/

namespace ResourceAudit

open ResourceAudit.Text ResourceAudit.Xml

/-- What goes well goes well step by step. -/
theorem exists_of_bind_eq_ok {ε α β : Type} {x : Except ε α} {f : α → Except ε β} {b : β}
    (h : x >>= f = .ok b) : ∃ a, x = .ok a ∧ f a = .ok b := by
  cases x with
  | error fault => cases h
  | ok a => exact ⟨a, rfl, h⟩

theorem bind_eq_ok_iff {ε α β : Type} {x : Except ε α} {f : α → Except ε β} {b : β} :
    x >>= f = .ok b ↔ ∃ a, x = .ok a ∧ f a = .ok b := by
  refine ⟨exists_of_bind_eq_ok, ?_⟩
  rintro ⟨a, rfl, h⟩
  exact h

/-- What holds in the beginning and is kept by every step holds behind a run. -/
theorem foldlM_invariant {ε α σ : Type} {step : σ → α → Except ε σ} {I : List α → σ → Prop} {x : σ}
    (hx : I [] x) (hstep : ∀ done y a z, I done y → step y a = .ok z → I (done ++ [a]) z)
    {l : List α} {y : σ} (h : l.foldlM step x = .ok y) : I l y := by
  induction l using List.reverseRecOn generalizing y with
  | nil =>
    cases h
    exact hx
  | append_singleton done a ih =>
    rw [List.foldlM_append] at h
    obtain ⟨z, hz, ha⟩ := exists_of_bind_eq_ok h
    simp only [List.foldlM_cons, List.foldlM_nil, bind_pure] at ha
    exact hstep done z a y (ih hz) ha

/-! ## open elements -/

/-- The names of elements without their namespaces. -/
def elementNames (tags : List Tag) : List String := tags.map (.ofList ·.localName)

/-- Whether one of the elements with these names, innermost first, is a child of a
`PropertyGroup`. -/
def isInProperty : List String → Bool
  | [] => false
  | _ :: outer => outer.head? == some "PropertyGroup" || isInProperty outer

theorem isInside_eq (frames : List Frame) (name : String) :
    isInside frames name = ((frames.map Frame.name).head? == some name) := by
  cases frames <;> rfl

/-! ## steps -/

namespace Evaluation

variable {e y : Evaluation} {tag : Tag}

/-- The tag of the root says the style; its frame is that of an element inside nothing. -/
theorem eq_of_root {frame : Frame} (h : e.root tag = .ok (y, frame)) :
    (∃ sdkStyle, y = { e with sdkStyle, hasRoot := true }) ∧
      tag.localName = "Project".toList ∧ frameOf [] tag = .ok frame := by
  simp only [root, bind, Except.bind, pure, Except.pure] at h
  split at h
  · cases h
  · next hname =>
    have hlocal : tag.localName = "Project".toList := not_not.1 hname
    refine ⟨?_, hlocal, ?_⟩
    all_goals repeat' split at h
    all_goals cases h
    · exact ⟨_, rfl⟩
    · next hcondition =>
      rw [frameOf, hcondition, hlocal, String.ofList_toList]
      rfl

theorem name_of_frameOf {frames : List Frame} {frame : Frame} (h : frameOf frames tag = .ok frame) :
    frame.name = .ofList tag.localName := by
  simp only [frameOf, bind, Except.bind, pure, Except.pure] at h
  repeat' split at h
  all_goals cases h
  all_goals rfl

/-- The tag of an element may say the style; it changes properties and items only
where there is no condition. -/
theorem eq_of_element {frame : Frame} {isEmpty : Bool} (h : e.element tag frame isEmpty = .ok y) :
    ∃ properties sdkStyle items, y = { e with properties, sdkStyle, items } ∧
      (frame.conditional = true → properties = e.properties ∧ items = e.items) := by
  simp only [element, bind, Except.bind, pure, Except.pure] at h
  repeat' split at h
  all_goals cases h
  all_goals refine ⟨_, _, _, rfl, ?_⟩
  all_goals simp_all

/-- Only a `Project` is opened as the root. -/
theorem localName_of_step_opened (h : e.step (.opened tag) = .ok y) (hroot : e.hasRoot = false) :
    tag.localName = "Project".toList := by
  simp only [step, hroot, Bool.not_false, if_true] at h
  obtain ⟨read, hread, -⟩ := exists_of_bind_eq_ok h
  exact (eq_of_root hread).2.1

/-- Behind an opening tag there is one more frame. -/
theorem of_step_opened (h : e.step (.opened tag) = .ok y) :
    ∃ frame, y.frames = frame :: e.frames ∧ y.hasRoot = true ∧
      (e.hasRoot = true ∨ e.frames = [] → frameOf e.frames tag = .ok frame) ∧
      y.property = (if e.hasRoot && isInside e.frames "PropertyGroup" then some (frame.name, [])
        else e.property) ∧
      (e.hasRoot = true → frame.conditional = true →
        y.properties = e.properties ∧ y.items = e.items) := by
  rw [step] at h
  dsimp only at h
  split at h
  · next hroot =>
    obtain ⟨⟨root, frame⟩, hread, hy⟩ := exists_of_bind_eq_ok h
    obtain ⟨⟨sdkStyle, rfl⟩, -, hframe⟩ := eq_of_root hread
    cases hy
    have hfalse : e.hasRoot = false := by simpa using hroot
    refine ⟨frame, rfl, rfl, fun hwhy => ?_, by simp [hfalse], by simp [hfalse]⟩
    rwa [hwhy.resolve_left (by simp [hfalse])]
  · next hroot =>
    obtain ⟨frame, hframe, h⟩ := exists_of_bind_eq_ok h
    obtain ⟨inner, helement, h⟩ := exists_of_bind_eq_ok h
    obtain ⟨properties, sdkStyle, items, rfl, hsame⟩ := eq_of_element helement
    cases h
    exact ⟨frame, rfl, by simpa using hroot, fun _ => hframe,
      by simp_all, fun _ => hsame⟩

/-- An element without content keeps the frames and the property that is open. -/
theorem of_step_empty (h : e.step (.empty tag) = .ok y) :
    ∃ properties sdkStyle items, y = { e with properties, sdkStyle, items, hasRoot := true } ∧
      (e.hasRoot = true → ∃ frame, frameOf e.frames tag = .ok frame ∧
        (frame.conditional = true → properties = e.properties ∧ items = e.items)) := by
  rw [step] at h
  dsimp only at h
  split at h
  · next hroot =>
    obtain ⟨⟨root, frame⟩, hread, hy⟩ := exists_of_bind_eq_ok h
    obtain ⟨⟨sdkStyle, rfl⟩, -⟩ := eq_of_root hread
    cases hy
    exact ⟨_, _, _, rfl, fun htrue => by simp [htrue] at hroot⟩
  · next hroot =>
    have htrue : e.hasRoot = true := by simpa using hroot
    obtain ⟨frame, hframe, h⟩ := exists_of_bind_eq_ok h
    obtain ⟨properties, sdkStyle, items, rfl, hsame⟩ := eq_of_element h
    exact ⟨properties, sdkStyle, items, by rw [← htrue], fun _ => ⟨frame, hframe, hsame⟩⟩

/-- The end of an element takes its frame away, and the property if it is one. -/
theorem close_eq {frame : Frame} {outer : List Frame} (h : e.frames = frame :: outer) :
    ∃ properties, e.close = { e with
        frames := outer, properties,
        property := if isInside outer "PropertyGroup" then none else e.property } ∧
      (frame.conditional = true → properties = e.properties) := by
  cases hgroup : isInside outer "PropertyGroup" with
  | false => exact ⟨e.properties, by simp [close, h, hgroup], fun _ => rfl⟩
  | true =>
    cases hproperty : e.property with
    | none => exact ⟨e.properties, by simp [close, h, hgroup, hproperty], fun _ => rfl⟩
    | some property =>
      refine ⟨_, by rw [close, h]; simp only [hgroup, hproperty]; rfl, fun hconditional => ?_⟩
      exact if_pos hconditional

/-- Character data adds to the property that is open. -/
theorem exists_addText_of_step_text {raw : List Char} (h : e.step (.text raw) = .ok y) :
    ∃ text, y = e.addText text := by
  rw [step] at h
  split at h
  · cases h
    exact ⟨[], e.addText_nil.symm⟩
  · obtain ⟨text, -, hy⟩ := exists_of_bind_eq_ok h
    cases hy
    exact ⟨text, rfl⟩

end Evaluation

/-! ## what the evaluator knows inside elements -/

/-- Being in the middle of a project file, inside the given elements. -/
structure Evaluation.IsAt (e : Evaluation) (around : List Tag) : Prop where
  names : e.frames.map Frame.name = elementNames around
  around_eq_nil : e.hasRoot = false → around = []
  isInProperty_of_isSome : e.property.isSome = true → isInProperty (elementNames around) = true

namespace Evaluation.IsAt

variable {e y : Evaluation} {around : List Tag}

theorem isInside_frames (h : e.IsAt around) (name : String) :
    isInside e.frames name = ((elementNames around).head? == some name) := by
  rw [isInside_eq, h.names]

theorem hasRoot_of_ne_nil (h : e.IsAt around) (hne : around ≠ []) : e.hasRoot = true := by
  rw [← Bool.not_eq_false]
  exact fun hfalse => hne (h.around_eq_nil hfalse)

/-- Nothing is open before the root. -/
theorem hasRoot_or_frames (h : e.IsAt around) : e.hasRoot = true ∨ e.frames = [] := by
  cases hroot : e.hasRoot with
  | true => exact .inl rfl
  | false =>
    have hnames := h.names
    rw [h.around_eq_nil hroot] at hnames
    exact .inr (List.map_eq_nil_iff.1 hnames)

/-- No property is collected where none is open. -/
theorem property_eq_none (h : e.IsAt around)
    (hplace : isInProperty (elementNames around) = false) : e.property = none := by
  rw [← Option.not_isSome_iff_eq_none]
  intro hsome
  rw [h.isInProperty_of_isSome hsome] at hplace
  cases hplace

theorem addText (h : e.IsAt around) (text : List Char) : (e.addText text).IsAt around :=
  ⟨h.names, h.around_eq_nil, fun hsome => h.isInProperty_of_isSome (by simpa [Evaluation.addText] using hsome)⟩

/-- The end of the innermost element. -/
theorem close (h : e.IsAt around) : e.close.IsAt around.tail := by
  cases hframes : e.frames with
  | nil =>
    have hnames := h.names
    rw [hframes] at hnames
    obtain rfl : around = [] := List.map_eq_nil_iff.1 hnames.symm
    rwa [Evaluation.close, hframes]
  | cons frame outer =>
    have hnames := h.names
    cases around with
    | nil => simp [hframes, elementNames] at hnames
    | cons tag around =>
      rw [hframes, List.map_cons, elementNames, List.map_cons, List.cons.injEq] at hnames
      obtain ⟨properties, hclose, -⟩ := close_eq hframes
      rw [hclose]
      refine ⟨hnames.2, fun hroot => by simpa using h.around_eq_nil hroot, fun hsome => ?_⟩
      dsimp only at hsome
      split at hsome
      · cases hsome
      · next hgroup =>
        have hin := h.isInProperty_of_isSome hsome
        rw [isInside_eq, hnames.2] at hgroup
        rw [elementNames, List.map_cons, isInProperty, Bool.or_eq_true] at hin
        exact hin.resolve_left hgroup

/-- A step of the evaluator goes along with the open elements. -/
theorem step (h : e.IsAt around) {event : Event} (hstep : e.step event = .ok y) :
    y.IsAt (openTags around [event]) := by
  cases event with
  | «opened» tag =>
    obtain ⟨frame, hframes, hroot, hframe, hproperty, -⟩ := of_step_opened hstep
    refine ⟨?_, by simp [hroot], fun hsome => ?_⟩
    · rw [hframes, List.map_cons, h.names, name_of_frameOf (hframe h.hasRoot_or_frames)]
      rfl
    · change ((elementNames around).head? == some "PropertyGroup" ||
        isInProperty (elementNames around)) = true
      rw [hproperty] at hsome
      split at hsome
      · next hgroup =>
        rw [h.isInside_frames, Bool.and_eq_true] at hgroup
        rw [hgroup.2, Bool.true_or]
      · rw [h.isInProperty_of_isSome hsome, Bool.or_true]
  | empty tag =>
    obtain ⟨properties, sdkStyle, items, rfl, -⟩ := of_step_empty hstep
    exact ⟨h.names, nofun, h.isInProperty_of_isSome⟩
  | closed name =>
    cases hstep
    exact h.close
  | text raw =>
    obtain ⟨text, rfl⟩ := exists_addText_of_step_text hstep
    exact h.addText text
  | cdata text =>
    cases hstep
    exact h.addText text
  | other =>
    cases hstep
    exact h

/-- And so does a run. -/
theorem foldlM_step (h : e.IsAt around) {events : List Event}
    (hrun : events.foldlM Evaluation.step e = .ok y) : y.IsAt (openTags around events) := by
  refine foldlM_invariant (I := fun done e => e.IsAt (openTags around done)) h ?_ hrun
  intro done x event z hx hz
  rw [openTags_append]
  exact hx.step hz

end Evaluation.IsAt

/-! ## the style -/

namespace Evaluation

variable {e y : Evaluation} {tag : Tag}

theorem element_style {frame : Frame} {isEmpty : Bool} (style : Bool)
    (h : e.element tag frame isEmpty = .ok y) :
    ∃ style', element { e with sdkStyle := style } tag frame isEmpty =
      .ok { y with sdkStyle := style' } := by
  cases hsdk : attributeValue? tag "Sdk"
  all_goals cases hitems : compileItems tag
  all_goals simp only [element, hsdk, hitems, bind, Except.bind, pure, Except.pure] at h ⊢
  all_goals split_ifs at h ⊢
  all_goals cases h
  all_goals exact ⟨_, rfl⟩

/-- A step does not look at the style. -/
theorem step_style {event : Event} (style : Bool) (h : e.step event = .ok y) :
    ∃ style', step { e with sdkStyle := style } event = .ok { y with sdkStyle := style' } := by
  cases event with
  | «opened» tag =>
    rw [step] at h ⊢
    dsimp only at h ⊢
    split at h
    · next hroot =>
      rw [if_pos hroot]
      exact ⟨_, h⟩
    · next hroot =>
      obtain ⟨frame, hframe, h⟩ := exists_of_bind_eq_ok h
      obtain ⟨inner, helement, h⟩ := exists_of_bind_eq_ok h
      obtain ⟨style', helement'⟩ := element_style style helement
      cases h
      refine ⟨style', ?_⟩
      rw [if_neg hroot, hframe]
      change (element _ tag frame false >>= _) = _
      rw [helement']
      rfl
  | empty tag =>
    rw [step] at h ⊢
    dsimp only at h ⊢
    split at h
    · next hroot =>
      rw [if_pos hroot]
      exact ⟨_, h⟩
    · next hroot =>
      obtain ⟨frame, hframe, h⟩ := exists_of_bind_eq_ok h
      obtain ⟨style', helement⟩ := element_style style h
      refine ⟨style', ?_⟩
      rw [if_neg hroot, hframe]
      exact helement
  | closed name =>
    cases h
    refine ⟨style, ?_⟩
    simp only [step, close]
    split
    · rfl
    · split <;> rfl
  | text raw =>
    refine ⟨style, ?_⟩
    rw [step] at h ⊢
    dsimp only at h ⊢
    split at h
    · next hproperty =>
      rw [if_pos hproperty]
      cases h
      rfl
    · next hproperty =>
      obtain ⟨text, htext, h⟩ := exists_of_bind_eq_ok h
      rw [if_neg hproperty, htext]
      cases h
      rfl
  | cdata text =>
    cases h
    exact ⟨style, rfl⟩
  | other =>
    cases h
    exact ⟨style, rfl⟩

/-- And neither does a run. -/
theorem foldlM_step_style {events : List Event} (style : Bool)
    (h : events.foldlM step e = .ok y) :
    ∃ style', events.foldlM step { e with sdkStyle := style } = .ok { y with sdkStyle := style' } := by
  induction events generalizing e style with
  | nil =>
    cases h
    exact ⟨style, rfl⟩
  | cons event rest ih =>
    rw [List.foldlM_cons] at h
    obtain ⟨z, hz, hrest⟩ := exists_of_bind_eq_ok h
    obtain ⟨style', hstep⟩ := step_style style hz
    rw [List.foldlM_cons, hstep]
    exact ih style' hrest

end Evaluation

/-! ## whole files -/

/-- What is known in front of a project file. -/
def Evaluation.start (reference : ProjectReference) (toolchain : Path) : Evaluation :=
  ⟨builtInProperties reference.path toolchain, false, [], [], false, none⟩

/-- The project behind the last part of its file. -/
def Evaluation.finish (e : Evaluation) (reference : ProjectReference)
    (fault : Option MarkupFault) : Except ProjectFault Project :=
  match fault with
  | some fault => .error (.markup fault)
  | none =>
    if !e.hasRoot then .error .noRoot
    else if !e.frames.isEmpty then .error .unclosed
    else .ok ⟨reference.name, reference.path, e.sdkStyle, e.properties, e.items⟩

theorem Evaluation.isAt_start (reference : ProjectReference) (toolchain : Path) :
    (Evaluation.start reference toolchain).IsAt [] :=
  ⟨rfl, fun _ => rfl, nofun⟩

/-- Character data counts in a property only. -/
theorem step_text_of_none {e : Evaluation} (h : e.property = none) (raw : List Char) :
    e.step (.text raw) = .ok e := by
  rw [Evaluation.step, h]
  rfl

/-- Evaluating a file goes through its parts. -/
theorem ofText_ofList (reference : ProjectReference) (toolchain : Path) (s : List Char) :
    Project.ofText reference toolchain (.ofList s) =
      (readFrom [] s).events.foldlM Evaluation.step (.start reference toolchain) >>=
        (·.finish reference (readFrom [] s).fault) := by
  rw [Project.ofText, String.toList_ofList]
  dsimp only
  rw [← fault_ofText, ← foldlM_ofText (step_text_of_none rfl) s]
  refine congrArg _ (funext fun e => ?_)
  cases (Document.ofText s).fault with
  | some fault => rfl
  | none => simp only [Evaluation.finish]; split_ifs <;> rfl

/-- What a well-formed file is evaluated to, without what is wrong where there is
nothing. -/
theorem toOption_ofText_source (reference : ProjectReference) (toolchain : Path) (f : Forest) :
    (Project.ofText reference toolchain (.ofList f.source)).toOption =
      (f.events.foldlM Evaluation.step? (.start reference toolchain)).bind
        fun e => (e.finish reference none).toOption := by
  have hrun : (readFrom [] f.source).events.foldlM Evaluation.step? (.start reference toolchain) =
      f.events.foldlM Evaluation.step? (.start reference toolchain) := by
    rw [f.readFrom_source_nil, Forest.foldlM_precede_events takesPieces_step?]
    exact Option.bind_fun_some _
  have hfault : (readFrom [] f.source).fault = none := by
    rw [f.readFrom_source_nil, Document.fault_precede]
  rw [ofText_ofList, toOption_bind, toOption_foldlM, hfault]
  exact congrArg (Option.bind · _) hrun

/-- What a well-formed file is evaluated to, from the events of its tree. -/
theorem ofText_source_eq_ok_iff {reference : ProjectReference} {toolchain : Path} {f : Forest}
    {p : Project} :
    Project.ofText reference toolchain (.ofList f.source) = .ok p ↔
      ∃ e, f.events.foldlM Evaluation.step (.start reference toolchain) = .ok e ∧
        e.finish reference none = .ok p := by
  have hrun : f.events.foldlM Evaluation.step? (.start reference toolchain) =
      (f.events.foldlM Evaluation.step (.start reference toolchain)).toOption :=
    (toOption_foldlM ..).symm
  rw [← toOption_eq_some_iff, toOption_ofText_source, hrun]
  simp only [Option.bind_eq_some_iff, toOption_eq_some_iff]

end ResourceAudit
