import ResourceAudit.Proofs.Xml.Element
import ResourceAudit.Text.Blank

/-!
# ResourceAudit.Proofs.Xml.Occurrence

The elements of a forest in the order of the document, each with the tags of
the elements around it.  A reader that keeps a stack of open elements sees
exactly these lists (`Forest.occurrences`); `Forest.outermost` are the elements
that nothing is around.
-/

namespace ResourceAudit.Xml

open ResourceAudit.Text

/-- The name of an element behind its namespace. -/
def WrittenTag.localName (t : WrittenTag) : List Char := t.tag.localName

/-- Whether an attribute has a value that is not blank. -/
def WrittenTag.hasValue (t : WrittenTag) (key : String) : Bool :=
  (t.value? key).any (!isBlankText ·)

/-- An element in its place. -/
structure Occurrence where
  /-- The tags of the elements around it, innermost first. -/
  around : List WrittenTag
  tag : WrittenTag
  content : Forest
  deriving DecidableEq

/-- Whether the element directly around an element has the given name. -/
def Occurrence.isChildOf (o : Occurrence) (name : String) : Bool :=
  o.around.head?.any (·.localName = name.toList)

namespace Forest

/-- The elements of a forest that has elements around it. -/
def occurrences (around : List WrittenTag) : Forest → List Occurrence
  | .nil => []
  | .text _ next => next.occurrences around
  | .cdata _ next => next.occurrences around
  | .aside _ next => next.occurrences around
  | .empty tag next => ⟨around, tag, .nil⟩ :: next.occurrences around
  | .element tag content _ next =>
    ⟨around, tag, content⟩ :: content.occurrences (tag :: around) ++ next.occurrences around

/-- The elements that are not inside another element of the forest. -/
def outermost : Forest → List WrittenTag
  | .nil => []
  | .text _ next => next.outermost
  | .cdata _ next => next.outermost
  | .aside _ next => next.outermost
  | .empty tag next => tag :: next.outermost
  | .element tag _ _ next => tag :: next.outermost

theorem map_tag_occurrences (f : Forest) (around : List WrittenTag) :
    (f.occurrences around).map Occurrence.tag = f.tags := by
  induction f generalizing around with
  | nil => rfl
  | text ss next ih => exact ih around
  | cdata s next ih => exact ih around
  | aside a next ih => exact ih around
  | empty tag next ih => rw [occurrences, List.map_cons, ih, tags]
  | element tag content gap next ihContent ihNext =>
    rw [occurrences, List.cons_append, List.map_cons, List.map_append, ihContent, ihNext, tags,
      List.cons_append]

theorem occurrences_of_outermost_eq_nil {f : Forest} (h : f.outermost = [])
    (around : List WrittenTag) : f.occurrences around = [] := by
  induction f with
  | nil => rfl
  | text ss next ih => exact ih h
  | cdata s next ih => exact ih h
  | aside a next ih => exact ih h
  | empty tag next ih => cases h
  | element tag content gap next ihContent ihNext => cases h

end Forest

end ResourceAudit.Xml
