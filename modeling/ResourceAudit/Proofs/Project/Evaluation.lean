import Mathlib
import ResourceAudit.Project.Evaluation
import ResourceAudit.Proofs.Xml.Occurrence

/-!
# ResourceAudit.Proofs.Project.Evaluation

What a project file means as a tree.  Every child of a `PropertyGroup` assigns
its text to the property it is named after, and every `Compile` child of an
`ItemGroup` gives its items; what has a condition, or stands inside an element
that has one, gives nothing.  The properties of the project are these
assignments made one after the other (`Properties.assign`), each with the
values the ones before it have left.

The evaluator keeps a stack of frames, one for each open element, and the text
of at most one property.  Inside the element of a property it collects the text
(`foldlM_step?_content`); everywhere else a forest makes its assignments, adds
its items and leaves the stack as it was (`foldlM_step?_inside`).
-/

namespace ResourceAudit

open ResourceAudit.Text ResourceAudit.Xml

/-! ## the tree -/

/-- A text that is given to a property. -/
structure Assignment where
  name : String
  text : List Char
  deriving DecidableEq, Repr

/-- Gives a property the trimmed text of an assignment, in which references
stand for the values before it. -/
def Properties.assign (p : Properties) (a : Assignment) : Properties :=
  p.set a.name (p.expand (.ofList (trim a.text)))

/-- The value of an attribute of an element. -/
def Xml.WrittenTag.attribute? (t : WrittenTag) (key : String) : Option String :=
  (t.value? key).map String.ofList

namespace Xml.Occurrence

/-- Whether an element or one around it has a condition. -/
def isConditional (o : Occurrence) : Bool := (o.tag :: o.around).any (·.hasValue "Condition")

/-- What a child of a `PropertyGroup` assigns. -/
def assignment? (o : Occurrence) : Option Assignment :=
  if o.isChildOf "PropertyGroup" && !o.isConditional then
    some ⟨.ofList o.tag.localName, o.content.innerText⟩
  else none

/-- What a `Compile` child of an `ItemGroup` includes, then what it removes. -/
def items (o : Occurrence) : List CompileItem :=
  if o.tag.localName = "Compile".toList && o.isChildOf "ItemGroup" && !o.isConditional then
    ((o.tag.attribute? "Include").map .include).toList ++
      ((o.tag.attribute? "Remove").map .remove).toList
  else []

/-- Whether an element other than the root says that a project is of the SDK
style: an `Sdk` child of a `Project`, or an `Import` from an SDK. -/
def bringsSdk (o : Occurrence) : Bool :=
  (o.tag.localName = "Sdk".toList && o.isChildOf "Project") ||
    (o.tag.localName = "Import".toList && (o.tag.attribute? "Sdk").isSome)

end Xml.Occurrence

namespace Xml.Forest

/-- What a project file assigns to properties. -/
def assignments (f : Forest) : List Assignment :=
  (f.occurrences []).filterMap Occurrence.assignment?

/-- The compile items of a project file. -/
def items (f : Forest) : List CompileItem := (f.occurrences []).flatMap Occurrence.items

/-- Whether a project file is of the SDK style. -/
def isSdkStyle (f : Forest) : Bool :=
  f.outermost.any (·.hasValue "Sdk") || (f.occurrences []).any Occurrence.bringsSdk

/-- Being a document of one `Project`, in which the children of a
`PropertyGroup` hold no elements and are no imports. -/
structure IsProject (f : Forest) : Prop where
  root : f.outermost.map WrittenTag.localName = ["Project".toList]
  plain : ∀ o ∈ f.occurrences [], o.isChildOf "PropertyGroup" → o.content.tags = []
  notImport : ∀ o ∈ f.occurrences [], o.isChildOf "PropertyGroup" →
    o.tag.localName ≠ "Import".toList

end Xml.Forest

/-! ## one tag -/

theorem attributeValue?_tag (t : WrittenTag) (key : String) :
    attributeValue? t.tag key = .ok (t.attribute? key) := by
  rw [attributeValue?, WrittenTag.attribute?_tag, WrittenTag.attribute?, WrittenTag.value?]
  cases t.find? key with
  | none => rfl
  | some a =>
    have hread : expand a.toAttribute.rawValue = .ok (meant a.value) := by
      rw [WrittenAttribute.rawValue_toAttribute, expand_written]
    simp only [Option.map_some, Except.mapError, bind, Except.bind, hread]
    rfl

theorem hasAttribute_tag (t : WrittenTag) (key : String) :
    hasAttribute t.tag key = .ok (t.hasValue key) := by
  rw [hasAttribute, attributeValue?_tag, WrittenTag.attribute?, WrittenTag.hasValue]
  cases t.value? key with
  | none => rfl
  | some v => simp [bind, Except.bind, pure, Except.pure]

/-- The frames of open elements. -/
def framesOf : List WrittenTag → List Frame
  | [] => []
  | t :: around =>
    ⟨.ofList t.localName, (t :: around).any (·.hasValue "Condition")⟩ :: framesOf around

theorem ofList_beq (s : List Char) (t : String) : (String.ofList s == t) = (s = t.toList : Bool) := by
  rw [Bool.eq_iff_iff, beq_iff_eq, decide_eq_true_eq]
  constructor
  · rintro rfl
    exact String.toList_ofList.symm
  · intro h
    rw [h, String.ofList_toList]

theorem isInside_framesOf (o : Occurrence) (name : String) :
    isInside (framesOf o.around) name = o.isChildOf name := by
  rw [isInside, Occurrence.isChildOf]
  cases o.around with
  | nil => rfl
  | cons t around => exact ofList_beq t.localName name

theorem frameOf_tag (around : List WrittenTag) (t : WrittenTag) :
    frameOf (framesOf around) t.tag =
      .ok ⟨.ofList t.localName, (t :: around).any (·.hasValue "Condition")⟩ := by
  have hinherited : (framesOf around).head?.any (·.conditional) =
      around.any (·.hasValue "Condition") := by
    cases around <;> rfl
  rw [frameOf, hinherited, hasAttribute_tag, List.any_cons]
  cases around.any (·.hasValue "Condition") with
  | true => rw [Bool.or_true]; rfl
  | false => rw [Bool.or_false]; rfl

/-- No element is a child of two names. -/
theorem Xml.Occurrence.isChildOf_inj {o : Occurrence} {a b : String} (ha : o.isChildOf a = true)
    (hb : o.isChildOf b = true) : a = b := by
  rw [isChildOf, Option.any_eq_true] at ha hb
  obtain ⟨t, ht, ha⟩ := ha
  obtain ⟨u, hu, hb⟩ := hb
  obtain rfl : t = u := Option.some.inj (ht.symm.trans hu)
  exact String.toList_inj.1 ((of_decide_eq_true ha).symm.trans (of_decide_eq_true hb))

/-- The tag of an element sets what it brings, and an empty property to nothing. -/
theorem element_tag (o : Occurrence)
    (himport : o.isChildOf "PropertyGroup" → o.tag.localName ≠ "Import".toList) (p : Properties)
    (sdk : Bool) (items : List CompileItem) (isEmpty : Bool) :
    Evaluation.element ⟨p, sdk, items, framesOf o.around, true, none⟩ o.tag.tag
        ⟨.ofList o.tag.localName, o.isConditional⟩ isEmpty =
      .ok ⟨if isEmpty && o.assignment?.isSome then p.set (.ofList o.tag.localName) "" else p,
        sdk || o.bringsSdk, items ++ o.items, framesOf o.around, true, none⟩ := by
  have hassignment : o.assignment?.isSome = (o.isChildOf "PropertyGroup" && !o.isConditional) := by
    rw [Occurrence.assignment?]
    cases o.isChildOf "PropertyGroup" && !o.isConditional <;> rfl
  -- an element has one name and one parent
  have hnames : ∀ {a b : String}, a ≠ b → o.tag.localName = a.toList → o.tag.localName ≠ b.toList :=
    fun hne ha hb => hne (String.toList_inj.1 (ha.symm.trans hb))
  have hparents : ∀ {a : String}, a ≠ "PropertyGroup" → o.isChildOf a = true →
      o.isChildOf "PropertyGroup" = false := fun hne ha =>
    Bool.eq_false_iff.2 fun hb => hne (o.isChildOf_inj ha hb)
  have hsdk := hnames (a := "Sdk") (b := "Import") (by decide)
  have hsdk' := hnames (a := "Sdk") (b := "Compile") (by decide)
  have himp := hnames (a := "Import") (b := "Compile") (by decide)
  have hproject := hparents (a := "Project") (by decide)
  have hitems := hparents (a := "ItemGroup") (by decide)
  simp only [Evaluation.element, compileItems, isInside_framesOf, ofList_beq, attributeValue?_tag,
    bind, Except.bind, pure, Except.pure, hassignment, Occurrence.bringsSdk, Occurrence.items]
  -- which names these are does not matter any more
  generalize "Sdk".toList = sdkName, "Import".toList = importName, "Compile".toList = compileName at *
  grind

theorem root_tag (e : Evaluation) {t : WrittenTag} (h : t.localName = "Project".toList) :
    e.root t.tag = .ok ({ e with sdkStyle := t.hasValue "Sdk", hasRoot := true },
      ⟨.ofList t.localName, t.hasValue "Condition"⟩) := by
  have hname : t.tag.localName = "Project".toList := h
  simp only [Evaluation.root, hasAttribute_tag, bind, Except.bind, pure, Except.pure, hname, h,
    ne_eq, not_true_eq_false, if_false]
  rfl

/-! ## one part -/

/-- The properties behind an element. -/
def Properties.update (p : Properties) (o : Occurrence) : Properties :=
  match o.assignment? with
  | some a => p.assign a
  | none => p

theorem Properties.assign_nil (p : Properties) (name : String) :
    p.assign ⟨name, []⟩ = p.set name "" := by
  have hexpand : p.expand (.ofList (trim [])) = "" := by
    rw [expand, trim_nil, String.toList_ofList, expandText]
  rw [assign, hexpand]

/-- A step of the evaluator, without what is wrong where it fails. -/
def Evaluation.step? (e : Evaluation) (event : Event) : Option Evaluation := (e.step event).toOption

/-- Character data counts in a property only. -/
theorem step?_text_of_none {e : Evaluation} (h : e.property = none) (raw : List Char) :
    e.step? (.text raw) = some e := by
  rw [Evaluation.step?, Evaluation.step, h]
  rfl

theorem step?_text_of_some {e : Evaluation} {property : String × List Char}
    (h : e.property = some property) (raw : List Char) :
    e.step? (.text raw) = (expand raw).toOption.map e.addText := by
  rw [Evaluation.step?, Evaluation.step, h]
  cases expand raw <;> rfl

theorem Evaluation.addText_nil (e : Evaluation) : e.addText [] = e := by
  cases e
  simp [Evaluation.addText]

theorem Evaluation.addText_addText (e : Evaluation) (s t : List Char) :
    (e.addText s).addText t = e.addText (s ++ t) := by
  simp [Evaluation.addText, Function.comp_def]

/-- The evaluator takes character data piece by piece. -/
theorem takesPieces_step? : TakesPieces Evaluation.step? := by
  constructor
  · intro e
    cases h : e.property with
    | none => exact step?_text_of_none h []
    | some property =>
      have hnil : expand [] = .ok [] := expand_written []
      rw [step?_text_of_some h, hnil]
      exact congrArg some e.addText_nil
  · intro e ss more
    cases h : e.property with
    | none => simp only [step?_text_of_none h, Option.bind_some]
    | some property =>
      have hss : (expand (written ss)).toOption = some (meant ss) := by rw [expand_written]; rfl
      have hopen : (e.addText (meant ss)).property = some (property.1, property.2 ++ meant ss) := by
        rw [Evaluation.addText, h]
        rfl
      rw [step?_text_of_some h, step?_text_of_some h, expand_written_append, hss, Option.map_some,
        Option.bind_some, step?_text_of_some hopen, Option.map_map]
      exact congrArg (Option.map · _) (funext fun s => (e.addText_addText (meant ss) s).symm)

section Steps

variable (p : Properties) (sdk : Bool) (items : List CompileItem)

theorem step?_opened (o : Occurrence)
    (himport : o.isChildOf "PropertyGroup" → o.tag.localName ≠ "Import".toList) :
    Evaluation.step? ⟨p, sdk, items, framesOf o.around, true, none⟩ (.opened o.tag.tag) =
      some ⟨p, sdk || o.bringsSdk, items ++ o.items, framesOf (o.tag :: o.around), true,
        if o.isChildOf "PropertyGroup" then some (.ofList o.tag.localName, []) else none⟩ := by
  have helement := element_tag o himport p sdk items false
  rw [Occurrence.isConditional] at helement
  simp only [Evaluation.step?, Evaluation.step, Bool.not_true, Bool.false_eq_true, if_false,
    frameOf_tag, bind, Except.bind, helement, isInside_framesOf]
  rfl

theorem step?_empty (o : Occurrence)
    (himport : o.isChildOf "PropertyGroup" → o.tag.localName ≠ "Import".toList)
    (hcontent : o.content.innerText = []) :
    Evaluation.step? ⟨p, sdk, items, framesOf o.around, true, none⟩ (.empty o.tag.tag) =
      some ⟨p.update o, sdk || o.bringsSdk, items ++ o.items, framesOf o.around, true, none⟩ := by
  have helement := element_tag o himport p sdk items true
  have hupdate : (if true && o.assignment?.isSome then p.set (.ofList o.tag.localName) "" else p) =
      p.update o := by
    rw [Properties.update, Occurrence.assignment?, hcontent]
    cases o.isChildOf "PropertyGroup" && !o.isConditional with
    | true => exact (p.assign_nil _).symm
    | false => rfl
  rw [hupdate, Occurrence.isConditional] at helement
  simp only [Evaluation.step?, Evaluation.step, Bool.not_true, Bool.false_eq_true, if_false,
    frameOf_tag, bind, Except.bind, helement]
  rfl

/-- The end of an element that is no property. -/
theorem step?_closed (o : Occurrence) (name : List Char) :
    Evaluation.step? ⟨p, sdk, items, framesOf (o.tag :: o.around), true, none⟩ (.closed name) =
      some ⟨p, sdk, items, framesOf o.around, true, none⟩ := by
  rw [Evaluation.step?, Evaluation.step, framesOf]
  simp only [Evaluation.close, isInside_framesOf]
  cases o.isChildOf "PropertyGroup" <;> rfl

/-- The end of a property, whose text has been collected. -/
theorem step?_closed_property (o : Occurrence) (hgroup : o.isChildOf "PropertyGroup" = true)
    (name : List Char) :
    Evaluation.step? ⟨p, sdk, items, framesOf (o.tag :: o.around), true,
        some (.ofList o.tag.localName, o.content.innerText)⟩ (.closed name) =
      some ⟨p.update o, sdk, items, framesOf o.around, true, none⟩ := by
  rw [Evaluation.step?, Evaluation.step, framesOf]
  simp only [Evaluation.close, isInside_framesOf, hgroup]
  rw [Properties.update, Occurrence.assignment?, hgroup, Occurrence.isConditional]
  cases (o.tag :: o.around).any (·.hasValue "Condition") <;> rfl

/-- Inside a property, what holds no elements adds its text and changes nothing else. -/
theorem foldlM_step?_content {f : Forest} (hf : f.tags = []) (frames : List Frame) (name : String)
    (text : List Char) :
    f.events.foldlM Evaluation.step? ⟨p, sdk, items, frames, true, some (name, text)⟩ =
      some ⟨p, sdk, items, frames, true, some (name, text ++ f.innerText)⟩ := by
  induction f generalizing text with
  | nil => simp [Forest.events, Forest.innerText]
  | text ss next ih =>
    have hstep : Evaluation.step? ⟨p, sdk, items, frames, true, some (name, text)⟩
        (.text (written ss)) = some ⟨p, sdk, items, frames, true, some (name, text ++ meant ss)⟩ := by
      rw [step?_text_of_some rfl, expand_written]
      rfl
    rw [Forest.events, List.foldlM_cons, hstep, Forest.innerText, ← List.append_assoc]
    exact ih hf (text ++ meant ss)
  | cdata s next ih =>
    rw [Forest.innerText, ← List.append_assoc]
    exact ih hf (text ++ s.chars)
  | aside a next ih => exact ih hf text
  | empty tag next ih => cases hf
  | element tag content gap next ihContent ihNext => cases hf

/-- Elsewhere a forest makes its assignments and adds its items. -/
theorem foldlM_step?_inside (f : Forest) (around : List WrittenTag)
    (hplain : ∀ o ∈ f.occurrences around, o.isChildOf "PropertyGroup" → o.content.tags = [])
    (himport : ∀ o ∈ f.occurrences around, o.isChildOf "PropertyGroup" →
      o.tag.localName ≠ "Import".toList) :
    f.events.foldlM Evaluation.step? ⟨p, sdk, items, framesOf around, true, none⟩ =
      some ⟨(f.occurrences around).foldl Properties.update p,
        sdk || (f.occurrences around).any Occurrence.bringsSdk,
        items ++ (f.occurrences around).flatMap Occurrence.items, framesOf around, true, none⟩ := by
  induction f generalizing around p sdk items with
  | nil => simp [Forest.events, Forest.occurrences]
  | text ss next ih => exact ih p sdk items around hplain himport
  | cdata s next ih => exact ih p sdk items around hplain himport
  | aside a next ih => exact ih p sdk items around hplain himport
  | empty tag next ih =>
    rw [Forest.occurrences, List.forall_mem_cons] at hplain himport
    have hstep := step?_empty p sdk items ⟨around, tag, .nil⟩ himport.1 rfl
    rw [Forest.events, List.foldlM_cons, hstep, Option.bind_eq_bind, Option.bind_some,
      ih _ _ _ around hplain.2 himport.2, Forest.occurrences, List.foldl_cons, List.any_cons,
      List.flatMap_cons, Bool.or_assoc, List.append_assoc]
  | element tag content gap next ihContent ihNext =>
    rw [Forest.occurrences, List.cons_append, List.forall_mem_cons, List.forall_mem_append]
      at hplain himport
    have hopened := step?_opened p sdk items ⟨around, tag, content⟩ himport.1
    have hnext := fun q sdk' items' => ihNext q sdk' items' around hplain.2.2 himport.2.2
    rw [Forest.occurrences, List.cons_append, List.foldl_cons, List.foldl_append, List.any_cons,
      List.any_append, List.flatMap_cons, List.flatMap_append, ← Bool.or_assoc, ← Bool.or_assoc,
      ← List.append_assoc, ← List.append_assoc]
    cases hgroup : (⟨around, tag, content⟩ : Occurrence).isChildOf "PropertyGroup" with
    | true =>
      have htags : content.tags = [] := hplain.1 hgroup
      have hnone : content.occurrences (tag :: around) = [] := by
        rw [← List.map_eq_nil_iff, content.map_tag_occurrences, htags]
      rw [hgroup, if_pos rfl] at hopened
      rw [Forest.foldlM_element hopened (foldlM_step?_content _ _ _ htags _ _ _)
        (step?_closed_property _ _ _ ⟨around, tag, content⟩ hgroup _), hnext, hnone]
      simp
    | false =>
      have hkeep : ∀ q : Properties, q.update ⟨around, tag, content⟩ = q := fun q => by
        rw [Properties.update, Occurrence.assignment?, hgroup]
        rfl
      rw [hgroup, if_neg Bool.false_ne_true] at hopened
      rw [Forest.foldlM_element hopened (ihContent _ _ _ _ hplain.2.1 himport.2.1)
        (step?_closed _ _ _ ⟨around, tag, content⟩ _), hnext, hkeep]

end Steps

/-! ## the whole file -/

/-- An element that nothing is around makes no assignment. -/
theorem update_outermost (p : Properties) (t : WrittenTag) (content : Forest) :
    p.update ⟨[], t, content⟩ = p := rfl

theorem items_outermost (t : WrittenTag) (content : Forest) :
    (⟨[], t, content⟩ : Occurrence).items = [] := by
  rw [Occurrence.items]
  simp [Occurrence.isChildOf]

theorem bringsSdk_outermost {t : WrittenTag} (h : t.localName = "Project".toList)
    (content : Forest) : (⟨[], t, content⟩ : Occurrence).bringsSdk = false := by
  simp [Occurrence.bringsSdk, h]

theorem step?_opened_root (p : Properties) {t : WrittenTag} (h : t.localName = "Project".toList) :
    Evaluation.step? ⟨p, false, [], [], false, none⟩ (.opened t.tag) =
      some ⟨p, t.hasValue "Sdk", [], framesOf [t], true, none⟩ := by
  simp only [Evaluation.step?, Evaluation.step, root_tag _ h, framesOf, List.any_cons, List.any_nil,
    Bool.or_false]
  rfl

theorem step?_empty_root (p : Properties) {t : WrittenTag} (h : t.localName = "Project".toList) :
    Evaluation.step? ⟨p, false, [], [], false, none⟩ (.empty t.tag) =
      some ⟨p, t.hasValue "Sdk", [], [], true, none⟩ := by
  simp only [Evaluation.step?, Evaluation.step, root_tag _ h]
  rfl

/-- Behind the root there are no elements, so nothing changes any more. -/
theorem foldlM_step?_behind_root {f : Forest} (h : f.outermost = []) (p : Properties) (sdk : Bool)
    (items : List CompileItem) :
    f.events.foldlM Evaluation.step? ⟨p, sdk, items, [], true, none⟩ =
      some ⟨p, sdk, items, [], true, none⟩ := by
  have hnone := Forest.occurrences_of_outermost_eq_nil h []
  have hfold := foldlM_step?_inside p sdk items f []
  rw [hnone, List.foldl_nil, List.any_nil, Bool.or_false, List.flatMap_nil, List.append_nil] at hfold
  exact hfold (by simp) (by simp)

/-- A document with one `Project` goes through that element. -/
theorem foldlM_step?_document (p : Properties) (f : Forest) (h : f.IsProject) :
    f.events.foldlM Evaluation.step? ⟨p, false, [], [], false, none⟩ =
      some ⟨f.assignments.foldl Properties.assign p, f.isSdkStyle, f.items, [], true, none⟩ := by
  obtain ⟨hroot, hplain, himport⟩ := h
  have hfold : f.assignments.foldl Properties.assign p =
      (f.occurrences []).foldl Properties.update p := by
    rw [Forest.assignments, List.foldl_filterMap]
    refine congrArg (List.foldl · p _) (funext₂ fun q o => ?_)
    rw [Properties.update]
    cases o.assignment? <;> rfl
  rw [hfold, Forest.isSdkStyle, Forest.items]
  clear hfold
  induction f with
  | nil => cases hroot
  | text ss next ih => exact ih hroot hplain himport
  | cdata s next ih => exact ih hroot hplain himport
  | aside a next ih => exact ih hroot hplain himport
  | empty tag next ih =>
    obtain ⟨hname, hnext⟩ := List.cons.inj hroot
    rw [List.map_eq_nil_iff] at hnext
    rw [Forest.events, List.foldlM_cons, step?_empty_root p hname, Option.bind_eq_bind,
      Option.bind_some, foldlM_step?_behind_root hnext]
    simp [Forest.occurrences, Forest.outermost, hnext, Forest.occurrences_of_outermost_eq_nil hnext,
      update_outermost, items_outermost, bringsSdk_outermost hname]
  | element tag content gap next ihContent ihNext =>
    obtain ⟨hname, hnext⟩ := List.cons.inj hroot
    rw [List.map_eq_nil_iff] at hnext
    rw [Forest.occurrences, List.cons_append, List.forall_mem_cons, List.forall_mem_append]
      at hplain himport
    rw [Forest.foldlM_element (step?_opened_root p hname)
      (foldlM_step?_inside _ _ _ _ _ hplain.2.1 himport.2.1)
      (step?_closed _ _ _ ⟨[], tag, content⟩ _)]
    refine (foldlM_step?_behind_root hnext _ _ _).trans ?_
    simp [Forest.occurrences, Forest.outermost, hnext, Forest.occurrences_of_outermost_eq_nil hnext,
      update_outermost, items_outermost, bringsSdk_outermost hname]

/-- A run without what is wrong where it fails. -/
theorem toOption_foldlM {ε α σ : Type} (step : σ → α → Except ε σ) (l : List α) (x : σ) :
    (l.foldlM step x).toOption = l.foldlM (fun x a => (step x a).toOption) x := by
  induction l generalizing x with
  | nil => rfl
  | cons a l ih =>
    rw [List.foldlM_cons, toOption_bind, List.foldlM_cons]
    exact congrArg _ (funext ih)

/-- What goes well without its faults goes well. -/
theorem toOption_eq_some_iff {ε α : Type} {x : Except ε α} {a : α} :
    x.toOption = some a ↔ x = .ok a := by
  cases x <;> simp [Except.toOption]

/-- A project file is evaluated to what it means as a tree. -/
theorem ofText_source (reference : ProjectReference) (toolchain : Path) {f : Forest}
    (h : f.IsProject) :
    Project.ofText reference toolchain (.ofList f.source) =
      .ok ⟨reference.name, reference.path, f.isSdkStyle,
        f.assignments.foldl Properties.assign (builtInProperties reference.path toolchain),
        f.items⟩ := by
  have hfold := foldlM_step?_document (builtInProperties reference.path toolchain) f h
  rw [← Forest.foldlM_ofText_source takesPieces_step? (step?_text_of_none rfl)] at hfold
  have hok := toOption_eq_some_iff.1 ((toOption_foldlM Evaluation.step _ _).trans hfold)
  rw [Project.ofText, String.toList_ofList]
  simp only [hok, Forest.fault_ofText_source, bind, Except.bind]
  rfl

/-- The frameworks that a property of a project lists. -/
def Project.listed (project : Project) (name : String) : List String :=
  splitList ((project.properties.find? name).getD "")

/-- A project file of one `Project` is always evaluated, and to what it means as
a tree: the properties are those every project has, changed by one assignment
after the other in the order of the document; the items are those of the
`Compile` elements, and the frameworks are listed by one of two properties. -/
theorem ofText_source_means (reference : ProjectReference) (toolchain : Path) {f : Forest}
    (h : f.IsProject) :
    ∃ project, Project.ofText reference toolchain (.ofList f.source) = .ok project ∧
      project.properties =
        f.assignments.foldl Properties.assign (builtInProperties reference.path toolchain) ∧
      project.items = f.items ∧
      project.targetFrameworks =
        if project.listed "TargetFrameworks" = [] then (project.listed "TargetFramework").take 1
        else project.listed "TargetFrameworks" := by
  refine ⟨_, ofText_source reference toolchain h, rfl, rfl, ?_⟩
  have hlower : foldCase "TargetFrameworks" = "targetframeworks" := by cbv
  have hlower' : foldCase "TargetFramework" = "targetframework" := by cbv
  rw [Project.targetFrameworks]
  simp only [Project.listed, Properties.find?, hlower, hlower']
  split
  · next h => rw [if_pos h]
  · next h => rw [if_neg h]

/-- A condition on a line of its own. -/
def conditionAttribute : WrittenAttribute where
  before := ⟨['\n'], List.all_eq_true.1 rfl⟩
  before_ne_nil := by decide
  key := ⟨"Condition".toList, by decide, List.all_eq_true.1 (by decide)⟩
  beforeEquals := .none
  afterEquals := .none
  quote := '\''
  quote_eq := .inr rfl
  value := spell "$(CI) == true".toList
  quote_not_mem := by decide

/-- A project that sets a property twice, lists its frameworks by way of it, and
has other frameworks under a condition. -/
def frameworksProject : Forest :=
  let project : Name := ⟨"Project".toList, by decide, List.all_eq_true.1 (by decide)⟩
  let group : Name := ⟨"PropertyGroup".toList, by decide, List.all_eq_true.1 (by decide)⟩
  let list : Name := ⟨"Frameworks".toList, by decide, List.all_eq_true.1 (by decide)⟩
  let frameworks : Name := ⟨"TargetFrameworks".toList, by decide, List.all_eq_true.1 (by decide)⟩
  let leaf (name : Name) (text : String) (next : Forest) : Forest :=
    .element ⟨name, [], .none⟩ (.text (spell text.toList) .nil) .none next
  .element ⟨project, [], .none⟩
    (.element ⟨group, [], .none⟩
      (leaf list "net8.0" <| leaf list "$(Frameworks);net6.0" <|
        leaf frameworks "$(frameworks); net472 ;" .nil) .none <|
      .element ⟨group, [conditionAttribute], .none⟩ (leaf frameworks "net9.0" .nil) .none .nil)
    .none .nil

theorem targetFrameworks_frameworksProject :
    frameworksProject.IsProject ∧
      ∃ project, Project.ofText ⟨"App", ⟨"/repo/App.csproj"⟩⟩ ⟨"/sdk"⟩
        (.ofList frameworksProject.source) = .ok project ∧
        project.targetFrameworks = ["net8.0", "net6.0", "net472"] := by
  have hproject : frameworksProject.IsProject := ⟨by decide, by decide, by decide⟩
  have hassignments : frameworksProject.assignments = [⟨"Frameworks", "net8.0".toList⟩,
      ⟨"Frameworks", "$(Frameworks);net6.0".toList⟩,
      ⟨"TargetFrameworks", "$(frameworks); net472 ;".toList⟩] := by decide
  have hvalue : ((frameworksProject.assignments.foldl Properties.assign
      (builtInProperties ⟨"/repo/App.csproj"⟩ ⟨"/sdk"⟩)).find? "TargetFrameworks") =
        some "net8.0;net6.0; net472 ;" := by
    rw [hassignments]
    cbv
  obtain ⟨project, hok, hproperties, -, hframeworks⟩ :=
    ofText_source_means ⟨"App", ⟨"/repo/App.csproj"⟩⟩ ⟨"/sdk"⟩ hproject
  refine ⟨hproject, project, hok, ?_⟩
  have hlisted : project.listed "TargetFrameworks" = ["net8.0", "net6.0", "net472"] := by
    rw [Project.listed, hproperties, hvalue]
    cbv
  rw [hframeworks, hlisted]
  rfl

end ResourceAudit
