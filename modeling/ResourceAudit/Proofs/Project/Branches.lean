import ResourceAudit.Proofs.Project.Conditional
import ResourceAudit.Proofs.Xml.Escape

/-!
# ResourceAudit.Proofs.Project.Branches

Branches and targets.  In a `Choose` one branch is taken, and what a `Target` holds
is for a build, so neither says what a project is made of.  The evaluator does
not know these elements: their groups count like any others
(`ofText_withoutBranches_stampProject`), and are left out only where an element
with a condition is around (`ofText_withoutBranches`).
-/

namespace ResourceAudit

open ResourceAudit.Text ResourceAudit.Xml

namespace Xml

/-- Whether an element inside others, innermost first, is a branch of a `Choose`. -/
def WrittenTag.isBranch (t : WrittenTag) (around : List WrittenTag) : Bool :=
  (t.localName = "When".toList || t.localName = "Otherwise".toList) &&
    around.head?.any (·.localName = "Choose".toList)

/-- A forest inside elements without the branches of every `Choose` and without what
every `Target` holds, where these elements and the ones around them meet a test. -/
def Forest.withoutBranches (test : List WrittenTag → Bool) (around : List WrittenTag) :
    Forest → Forest
  | .nil => .nil
  | .text ss next => .text ss (next.withoutBranches test around)
  | .cdata s next => .cdata s (next.withoutBranches test around)
  | .aside a next => .aside a (next.withoutBranches test around)
  | .empty tag next =>
    if tag.isBranch around && test (tag :: around) then next.withoutBranches test around
    else .empty tag (next.withoutBranches test around)
  | .element tag content gap next =>
    if tag.isBranch around && test (tag :: around) then next.withoutBranches test around
    else if tag.localName = "Target".toList && test (tag :: around) then
      .element tag .nil gap (next.withoutBranches test around)
    else
      .element tag (content.withoutBranches test (tag :: around)) gap
        (next.withoutBranches test around)

end Xml

/-- Whether a condition holds for an element or for one around it, and the element is not
inside a property. -/
def isUnderCondition (elements : List WrittenTag) : Bool :=
  elements.any (·.hasValue "Condition") &&
    !isInProperty (elementNames (elements.tail.map WrittenTag.tag))

/-! ## inside a forest -/

/-- Being in the middle of a well-formed project file, inside the given elements. -/
structure Evaluation.IsInside (e : Evaluation) (around : List WrittenTag) : Prop
    extends e.IsAt (around.map WrittenTag.tag) where
  frames : e.frames = framesOf around

namespace Evaluation.IsInside

variable {e y : Evaluation} {around : List WrittenTag}

theorem opened (h : e.IsInside around) {tag : WrittenTag}
    (hstep : e.step (.opened tag.tag) = .ok y) : y.IsInside (tag :: around) := by
  obtain ⟨frame, hframes, -, hframe, -, -⟩ := of_step_opened hstep
  refine ⟨h.step hstep, ?_⟩
  have hread := hframe h.hasRoot_or_frames
  rw [h.frames, frameOf_tag, Except.ok.injEq] at hread
  rw [hframes, h.frames, framesOf, hread]

theorem closed (h : e.IsInside around) (name : List Char)
    (hstep : e.step (.closed name) = .ok y) : y.IsInside around.tail := by
  have hat := h.step hstep
  rw [openTags, openTags, ← List.map_tail] at hat
  refine ⟨hat, ?_⟩
  cases hstep
  cases around with
  | nil =>
    have hframes : e.frames = [] := h.frames
    rw [Evaluation.close, hframes]
    exact h.frames
  | cons tag around =>
    obtain ⟨properties, hclose, -⟩ := close_eq h.frames
    rw [hclose]
    rfl

/-- What opens and closes nothing stays inside. -/
theorem step_of_frames (h : e.IsInside around) (event : Event)
    (hopen : openTags (around.map WrittenTag.tag) [event] = around.map WrittenTag.tag)
    (hstep : e.step event = .ok y) (hframes : y.frames = e.frames) : y.IsInside around :=
  ⟨hopen ▸ h.step hstep, hframes.trans h.frames⟩

/-- Why an element under a condition has a frame that is conditional. -/
theorem conditional_of_isUnderCondition (h : e.IsInside around) {tag : WrittenTag}
    (htest : isUnderCondition (tag :: around) = true) :
    e.frames.head?.any (·.conditional) = true ∨ hasAttribute tag.tag "Condition" = .ok true := by
  rw [isUnderCondition, Bool.and_eq_true, List.any_cons, Bool.or_eq_true] at htest
  rcases htest.1 with htag | haround
  · exact .inr (by rw [hasAttribute_tag, htag])
  · left
    rw [h.frames]
    cases around with
    | nil => cases haround
    | cons outer around => exact haround

end Evaluation.IsInside

/-! ## without branches -/

/-- To go through an element is to go through its tag, what it holds and its closing
tag. -/
theorem foldlM_element_eq_ok_iff {tag : WrittenTag} {content next : Forest} {gap : Gap}
    {e y : Evaluation} :
    (Forest.element tag content gap next).events.foldlM Evaluation.step e = .ok y ↔
      ∃ inside, e.step (.opened tag.tag) = .ok inside ∧
        ∃ last, content.events.foldlM Evaluation.step inside = .ok last ∧
          ∃ behind, last.step (.closed tag.name.chars) = .ok behind ∧
            next.events.foldlM Evaluation.step behind = .ok y := by
  simp only [Forest.events, List.cons_append, List.foldlM_cons, List.foldlM_append, bind_eq_ok_iff]

namespace Evaluation.IsInside

variable {e y : Evaluation} {around : List WrittenTag}

/-- What a forest is read to stands inside the same elements. -/
theorem foldlM_step (h : e.IsInside around) {f : Forest}
    (hrun : f.events.foldlM Evaluation.step e = .ok y) : y.IsInside around := by
  induction f generalizing e y around with
  | nil =>
    cases hrun
    exact h
  | text ss next ih =>
    obtain ⟨z, hz, hnext⟩ := exists_of_bind_eq_ok hrun
    obtain ⟨text, rfl⟩ := exists_addText_of_step_text hz
    exact ih (h.step_of_frames _ rfl hz rfl) hnext
  | cdata s next ih =>
    obtain ⟨z, hz, hnext⟩ := exists_of_bind_eq_ok hrun
    cases hz
    exact ih (h.step_of_frames (.cdata s.chars) rfl rfl rfl) hnext
  | aside a next ih =>
    exact ih h hrun
  | empty tag next ih =>
    obtain ⟨z, hz, hnext⟩ := exists_of_bind_eq_ok hrun
    obtain ⟨properties, sdkStyle, items, rfl, -⟩ := of_step_empty hz
    exact ih (h.step_of_frames _ rfl hz rfl) hnext
  | element tag content gap next ihContent ihNext =>
    obtain ⟨inside, hopened, last, hcontent, behind, hclosed, hnext⟩ :=
      foldlM_element_eq_ok_iff.1 hrun
    exact ihNext ((ihContent (h.opened hopened) hcontent).closed _ hclosed) hnext

/-- An element under a condition says no more than the style, whatever it holds. -/
theorem style_of_element (h : e.IsInside around) (hroot : e.hasRoot = true) {tag : WrittenTag}
    (htest : isUnderCondition (tag :: around) = true) (content : Forest) (name : List Char)
    {inside last : Evaluation} (hopened : e.step (.opened tag.tag) = .ok inside)
    (hcontent : content.events.foldlM Evaluation.step inside = .ok last)
    (hclosed : last.step (.closed name) = .ok y) :
    ∃ style, y = { e with sdkStyle := style } := by
  have hplace : isInProperty (elementNames (around.map WrittenTag.tag)) = false := by
    rw [isUnderCondition, Bool.and_eq_true] at htest
    simpa using htest.2
  have hrun : (.opened tag.tag :: (content.events ++ [.closed name])).foldlM Evaluation.step e =
      .ok y := by
    simp only [List.foldlM_cons, List.foldlM_append, List.foldlM_nil, bind_pure, bind_eq_ok_iff]
    exact ⟨inside, hopened, last, hcontent, hclosed⟩
  exact h.style_of_conditional hroot hplace (h.conditional_of_isUnderCondition htest)
    (content.openAfter_events 0) hrun

/-- A branch is inside an element, and so behind the tag of the root. -/
theorem hasRoot_of_isBranch (h : e.IsInside around) {tag : WrittenTag}
    (hbranch : tag.isBranch around = true) : e.hasRoot = true := by
  refine h.hasRoot_of_ne_nil fun hnil => ?_
  rw [List.map_eq_nil_iff.1 hnil, WrittenTag.isBranch, List.head?_nil, Option.any_none,
    Bool.and_false] at hbranch
  cases hbranch

/-- Nothing but a `Project` is the root. -/
theorem hasRoot_of_localName {tag : WrittenTag} (hopened : e.step (.opened tag.tag) = .ok y)
    (hname : tag.localName = "Target".toList) : e.hasRoot = true := by
  rw [← Bool.not_eq_false]
  intro hfalse
  have hproject : tag.localName = "Project".toList := localName_of_step_opened hopened hfalse
  rw [hname] at hproject
  exact absurd hproject (by decide)

/-- Without its branches under conditions a forest leads to the same but for the style. -/
theorem exists_foldlM_withoutBranches (h : e.IsInside around) {f : Forest} (style : Bool)
    (hrun : f.events.foldlM Evaluation.step e = .ok y) :
    ∃ style', (f.withoutBranches isUnderCondition around).events.foldlM Evaluation.step
      { e with sdkStyle := style } = .ok { y with sdkStyle := style' } := by
  induction f generalizing e y around style with
  | nil =>
    cases hrun
    exact ⟨style, rfl⟩
  | text ss next ih =>
    obtain ⟨z, hz, hnext⟩ := exists_of_bind_eq_ok hrun
    obtain ⟨style₁, hz'⟩ := step_style style hz
    obtain ⟨text, rfl⟩ := exists_addText_of_step_text hz
    obtain ⟨style', hnext'⟩ := ih (h.step_of_frames _ rfl hz rfl) style₁ hnext
    exact ⟨style', bind_eq_ok_iff.2 ⟨_, hz', hnext'⟩⟩
  | cdata s next ih =>
    obtain ⟨z, hz, hnext⟩ := exists_of_bind_eq_ok hrun
    cases hz
    exact ih (h.step_of_frames (.cdata s.chars) rfl rfl rfl) style hnext
  | aside a next ih => exact ih h style hrun
  | empty tag next ih =>
    obtain ⟨z, hz, hnext⟩ := exists_of_bind_eq_ok hrun
    have hbehind : z.IsInside around := by
      obtain ⟨properties, sdkStyle, items, rfl, -⟩ := of_step_empty hz
      exact h.step_of_frames _ rfl hz rfl
    rw [Forest.withoutBranches]
    split
    · next htest =>
      rw [Bool.and_eq_true] at htest
      obtain ⟨style₁, rfl⟩ := IsAt.style_of_conditional_empty (h.hasRoot_of_isBranch htest.1)
        (h.conditional_of_isUnderCondition htest.2) hz
      exact ih hbehind style hnext
    · obtain ⟨style₁, hz'⟩ := step_style style hz
      obtain ⟨style', hnext'⟩ := ih hbehind style₁ hnext
      exact ⟨style', bind_eq_ok_iff.2 ⟨_, hz', hnext'⟩⟩
  | element tag content gap next ihContent ihNext =>
    obtain ⟨inside, hopened, last, hcontent, behind, hclosed, hnext⟩ :=
      foldlM_element_eq_ok_iff.1 hrun
    have hinside := h.opened hopened
    have hbehind : behind.IsInside around := (hinside.foldlM_step hcontent).closed _ hclosed
    rw [Forest.withoutBranches]
    split
    · next htest =>
      rw [Bool.and_eq_true] at htest
      obtain ⟨style₁, rfl⟩ := h.style_of_element (h.hasRoot_of_isBranch htest.1) htest.2 _ _
        hopened hcontent hclosed
      exact ihNext hbehind style hnext
    obtain ⟨style₁, hopened'⟩ := step_style style hopened
    split
    · next htest =>
      rw [Bool.and_eq_true, decide_eq_true_eq] at htest
      have hroot := hasRoot_of_localName hopened htest.1
      obtain ⟨style₂, rfl⟩ := h.style_of_element hroot htest.2 _ _ hopened hcontent hclosed
      -- the target leads to the same with and without what it holds
      obtain ⟨style₃, hempty⟩ := h.style_of_element hroot htest.2 .nil tag.name.chars hopened
        rfl rfl
      obtain ⟨style₄, hclosed'⟩ := step_style style₁
        (show inside.step (.closed tag.name.chars) = .ok { e with sdkStyle := style₃ } from
          congrArg Except.ok hempty)
      obtain ⟨style', hnext'⟩ := ihNext hbehind style₄ hnext
      exact ⟨style', foldlM_element_eq_ok_iff.2 ⟨_, hopened', _, rfl, _, hclosed', hnext'⟩⟩
    · obtain ⟨style₂, hcontent'⟩ := ihContent hinside style₁ hcontent
      obtain ⟨style₃, hclosed'⟩ := step_style style₂ hclosed
      obtain ⟨style', hnext'⟩ := ihNext hbehind style₃ hnext
      exact ⟨style', foldlM_element_eq_ok_iff.2 ⟨_, hopened', _, hcontent', _, hclosed', hnext'⟩⟩

end Evaluation.IsInside

/-- A well-formed project file means the same properties, frameworks and items without the
branches of every `Choose` and without what every `Target` holds, where these are under a
condition, their own or that of an element around them, and not inside a property. -/
theorem ofText_withoutBranches (reference : ProjectReference) (toolchain : Path) {f : Forest}
    {p : Project} (h : Project.ofText reference toolchain (.ofList f.source) = .ok p) :
    ∃ q, Project.ofText reference toolchain
        (.ofList (f.withoutBranches isUnderCondition []).source) = .ok q ∧
      q.properties = p.properties ∧ q.targetFrameworks = p.targetFrameworks ∧
      q.items = p.items := by
  obtain ⟨e, hrun, hfinish⟩ := ofText_source_eq_ok_iff.1 h
  have hstart : (Evaluation.start reference toolchain).IsInside [] :=
    ⟨Evaluation.isAt_start reference toolchain, rfl⟩
  obtain ⟨style, hwithout⟩ := hstart.exists_foldlM_withoutBranches false hrun
  exact ⟨{ p with sdkStyle := style }, ofText_source_eq_ok_iff.2
    ⟨_, hwithout, Evaluation.finish_style hfinish style⟩, rfl, rfl, rfl⟩

/-- The branch of `chooseProject` has a condition. -/
theorem ofText_withoutBranches_chooseProject :
    chooseProject.withoutBranches isUnderCondition [] =
      .plain "Project" (frameworkGroup "net8.0" <| .plain "Choose" .nil .nil) .nil ∧
    ∃ p, Project.ofText ⟨"App", ⟨"/repo/App.csproj"⟩⟩ ⟨"/sdk"⟩
        (.ofList chooseProject.source) = .ok p ∧
      ∃ q, Project.ofText ⟨"App", ⟨"/repo/App.csproj"⟩⟩ ⟨"/sdk"⟩
          (.ofList (chooseProject.withoutBranches isUnderCondition []).source) = .ok q ∧
        q.properties = p.properties ∧ q.targetFrameworks = p.targetFrameworks ∧
        q.items = p.items := by
  have hread := ofText_source ⟨"App", ⟨"/repo/App.csproj"⟩⟩ ⟨"/sdk"⟩ (f := chooseProject)
    ⟨by decide, by decide, by decide⟩
  exact ⟨by decide +kernel, _, hread, ofText_withoutBranches _ _ hread⟩

/-- A file with another branch behind one with a condition, and with an item in a target. -/
def stampProject : Forest :=
  let compile : WrittenTag :=
    ⟨.ofText "Compile", [.escaped (.ofText "Include") "Stamp.cs".toList], .none⟩
  .plain "Project"
    (.plain "Choose"
      (.element whenTag (frameworkGroup "net8.0" .nil) .none <|
        .plain "Otherwise" (frameworkGroup "net6.0" .nil) .nil) <|
      .plain "Target" (.plain "ItemGroup" (.empty compile .nil) .nil) .nil) .nil

/-- The branch without a condition counts, and so does what the target holds. -/
theorem ofText_withoutBranches_stampProject :
    stampProject.withoutBranches (fun _ => true) [] =
      .plain "Project" (.plain "Choose" .nil <| .plain "Target" .nil .nil) .nil ∧
    ∃ p q, Project.ofText ⟨"App", ⟨"/repo/App.csproj"⟩⟩ ⟨"/sdk"⟩
        (.ofList stampProject.source) = .ok p ∧
      Project.ofText ⟨"App", ⟨"/repo/App.csproj"⟩⟩ ⟨"/sdk"⟩
        (.ofList (stampProject.withoutBranches (fun _ => true) []).source) = .ok q ∧
      p.targetFrameworks = ["net6.0"] ∧ q.targetFrameworks = [] ∧
      p.items = [.include "Stamp.cs"] ∧ q.items = [] := by
  refine ⟨by decide +kernel, _, _, ofText_source _ _ ⟨by decide, by decide, by decide⟩,
    ofText_source _ _ ⟨by decide, by decide, by decide⟩, ?_, ?_, by decide, by decide⟩
  · decide +kernel
  · decide +kernel

end ResourceAudit
