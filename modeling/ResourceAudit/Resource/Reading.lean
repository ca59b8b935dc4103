import ResourceAudit.Resource
import ResourceAudit.Symbol
import ResourceAudit.Text.Lines
import ResourceAudit.Xml.Document

/-!
# ResourceAudit.Resource.Reading

Reading resource entries from the documentation of members.  The name of an
entry is that of the first `member` element and its value the text of the first
`summary` element; documentation that is not well-formed gives no entry.
-/

namespace ResourceAudit

open ResourceAudit.Text ResourceAudit.Xml

/-- What is known in the middle of a documentation text. -/
structure Extraction where
  name : Option (List Char)
  /-- The text of the first summary, once that has ended. -/
  summary : Option (List Char)
  /-- The number of open elements. -/
  opened : Nat
  /-- The number of open elements from the first summary on, zero outside. -/
  depth : Nat
  /-- The text of the first summary so far. -/
  text : List Char
  deriving DecidableEq, Repr

/-- The value of the name attribute of an element, empty if it has none. -/
def nameAttribute? (tag : Tag) : Option (List Char) :=
  match tag.attribute? "name" with
  | .error _ => none
  | .ok none => some []
  | .ok (some a) => (expand a.rawValue).toOption

/-- Looks at the tag of an element outside the first summary. -/
def Extraction.element (x : Extraction) (tag : Tag) : Option Extraction :=
  if tag.name = "member".toList ∧ x.name = none then do
    return { x with name := some (← nameAttribute? tag) }
  else some x

/-- Whether an element is the first summary. -/
def Extraction.beginsSummary (x : Extraction) (tag : Tag) : Bool :=
  tag.name == "summary".toList && x.summary.isNone

/-- Goes through one part of a documentation text. -/
def Extraction.step (x : Extraction) (event : Event) : Option Extraction :=
  match event with
  | .opened tag =>
    let x := { x with opened := x.opened + 1 }
    if 0 < x.depth then some { x with depth := x.depth + 1 }
    else if x.beginsSummary tag then some { x with depth := 1 }
    else x.element tag
  | .empty tag =>
    if 0 < x.depth then some x
    else if x.beginsSummary tag then some { x with summary := some [] }
    else x.element tag
  | .text raw =>
    if 0 < x.depth then do
      let text ← (expand raw).toOption
      return { x with text := x.text ++ text }
    else some x
  | .cdata text => some (if 0 < x.depth then { x with text := x.text ++ text } else x)
  | .closed _ =>
    if x.opened = 0 then none
    else
      let x := { x with opened := x.opened - 1 }
      match x.depth with
      | 0 => some x
      | 1 => some { x with depth := 0, summary := some x.text, text := [] }
      | depth + 1 => some { x with depth }
  | .other => some x

/-- The lines of a text that are not blank, trimmed and in one line. -/
def joinLines (s : List Char) : List Char :=
  join [' '] (((lines s).map trim).filter (!·.isEmpty))

/-- The entry that has been found when a documentation text ends. -/
def Extraction.toEntry (x : Extraction) : Option Entry := do
  guard (x.opened = 0)
  let name ← x.name
  let summary ← x.summary
  let entry : Entry := ⟨.ofList (trim name), .ofList (joinLines summary)⟩
  guard !entry.isBlank
  return entry

/-- The resource entry that a documentation text holds. -/
def entryOfMarkup (documentation : String) : Option Entry := do
  let document := Document.ofText documentation.toList
  let x ← document.events.foldlM Extraction.step ⟨none, none, 0, 0, []⟩
  guard document.fault.isNone
  x.toEntry

/-- The entry in one piece: there is one where every element is closed, a name
and a summary have been found, and neither is blank. -/
theorem Extraction.toEntry_eq (x : Extraction) :
    x.toEntry = if x.opened = 0 then
        x.name.bind fun name => x.summary.bind fun summary =>
          let entry : Entry := ⟨.ofList (trim name), .ofList (joinLines summary)⟩
          if entry.isBlank then none else some entry
      else none := by
  have hguard : ∀ (p : Prop) [Decidable p] (o : Option Entry),
      (guard p >>= fun _ => o) = if p then o else none := by
    intro p _ o
    show ((if p then some () else none).bind fun _ => o) = if p then o else none
    split <;> rfl
  rw [toEntry, hguard]
  refine ite_congr rfl (fun _ => ?_) (fun _ => rfl)
  refine congrArg _ (funext fun name => congrArg _ (funext fun summary => ?_))
  refine (hguard _ _).trans ?_
  dsimp only
  cases Entry.isBlank ⟨.ofList (trim name), .ofList (joinLines summary)⟩ <;> rfl

/-- An entry that is found has a name and a value. -/
theorem Extraction.isBlank_of_toEntry {x : Extraction} {e : Entry} (h : x.toEntry = some e) :
    e.isBlank = false := by
  rw [toEntry_eq] at h
  split at h
  · simp only [Option.bind_eq_some_iff, Option.ite_none_left_eq_some, Option.some.injEq] at h
    obtain ⟨name, -, summary, -, hblank, rfl⟩ := h
    exact Bool.eq_false_iff.2 hblank
  · simp at h

theorem isBlank_of_entryOfMarkup {documentation : String} {e : Entry}
    (h : entryOfMarkup documentation = some e) : e.isBlank = false := by
  obtain ⟨x, -, hx⟩ := Option.bind_eq_some_iff.1 h
  obtain ⟨-, -, he⟩ := Option.bind_eq_some_iff.1 hx
  exact Extraction.isBlank_of_toEntry he

/-! ## members -/

/-- The members of every accessor that are no resources. -/
def scaffolding : List String :=
  ["s_resourceManager", "ResourceManager", "Culture", "GetResourceString"]

/-- Whether a member of an accessor stands for a resource. -/
def MemberSymbol.isResource (m : MemberSymbol) : Bool :=
  m.isStatic && !scaffolding.contains m.name

/-- The entries of an accessor, in the order of its members. -/
def TypeSymbol.entries (t : TypeSymbol) : List Entry :=
  (t.members.filter (·.isResource)).filterMap fun m => entryOfMarkup m.documentation

end ResourceAudit
