import ResourceAudit.Proofs.Xml.Element

/-!
# ResourceAudit.Proofs.Xml.Slot

Places for character data.  A `Slot` is a forest with one place in it, at any
depth, that any text without tags may take: text that spellings write makes a
forest of it again (`Slot.source_fill`), and other text is read at this place
all the same (`Slot.readFrom_between`, `Slot.readFrom_inside`).
-/

namespace ResourceAudit.Xml

/-! ## forests in a row -/

namespace Forest

/-- A forest in front of another one. -/
def append : Forest → Forest → Forest
  | .nil, g => g
  | .text ss next, g => .text ss (next.append g)
  | .cdata s next, g => .cdata s (next.append g)
  | .aside a next, g => .aside a (next.append g)
  | .empty tag next, g => .empty tag (next.append g)
  | .element tag content gap next, g => .element tag content gap (next.append g)

theorem source_append (f g : Forest) : (f.append g).source = f.source ++ g.source := by
  induction f with
  | nil => rfl
  | element tag content gap next _ ih =>
    rw [append, source_element, source_element, ih]
    simp only [List.append_assoc, List.cons_append]
  | text _ _ ih | cdata _ _ ih | aside _ _ ih | empty _ _ ih => simp [append, source, ih]

/-- Whether a forest begins with character data. -/
def beginsWithText : Forest → Bool
  | .text .. => true
  | _ => false

theorem source_of_not_beginsWithText {f : Forest} (h : f.beginsWithText = false)
    (markup : List Char) : ∃ rest, f.source ++ '<' :: markup = '<' :: rest := by
  cases f with
  | nil => exact ⟨markup, rfl⟩
  | text ss next => simp [beginsWithText] at h
  | _ => exact ⟨_, rfl⟩

end Forest

/-! ## slots -/

/-- A place for character data in a forest. -/
inductive Slot where
  /-- Between two forests; the character data ends where the second one begins. -/
  | between (before after : Forest) (ends : after.beginsWithText = false)
  /-- In an element between two forests. -/
  | inside (before : Forest) (tag : WrittenTag) (slot : Slot) (gap : Gap) (after : Forest)
  deriving DecidableEq

namespace Slot

/-- The text of the forest with the given text in its place. -/
def source (raw : List Char) : Slot → List Char
  | .between before after _ => before.source ++ (raw ++ after.source)
  | .inside before tag slot gap after =>
    before.source ++
      '<' :: (tag.content ++ ['>'] ++ (slot.source raw ++ '<' :: (tag.closing gap ++ after.source)))

/-- The forest with the character data that spellings write. -/
def fill (ss : List Spelling) : Slot → Forest
  | .between before after _ => before.append (.text ss after)
  | .inside before tag slot gap after => before.append (.element tag (slot.fill ss) gap after)

theorem source_fill (slot : Slot) (ss : List Spelling) :
    (slot.fill ss).source = slot.source (written ss) := by
  induction slot with
  | between before after ends => rw [fill, Forest.source_append, Forest.source, source]
  | inside before tag slot gap after ih =>
    rw [fill, Forest.source_append, Forest.source_element, ih, source]

/-- Whether the place is in the first element with a name. -/
def isInFirst (name : List Char) : Slot → Bool
  | .between .. => false
  | .inside before tag slot _ _ =>
    (before.first? name).isNone && (tag.name.chars == name || slot.isInFirst name)

/-! ## reading -/

variable {raw : List Char}

theorem readFrom_between (hraw : '<' ∉ raw) (before after : Forest)
    (ends : after.beginsWithText = false) (opened : List (List Char)) (rest : List Char) :
    readFrom opened ((between before after ends).source raw ++ rest) =
      ((readFrom opened (after.source ++ rest)).prependText raw).precede before.events := by
  rw [source, List.append_assoc, List.append_assoc, Forest.readFrom_source,
    readFrom_append opened hraw]

theorem readFrom_inside (before : Forest) (tag : WrittenTag) (slot : Slot) (gap : Gap)
    (after : Forest) (opened : List (List Char)) (rest : List Char) :
    readFrom opened ((inside before tag slot gap after).source raw ++ rest) =
      ((readFrom (tag.name.chars :: opened)
        (slot.source raw ++ '<' :: (tag.closing gap ++ (after.source ++ rest)))).cons
          (.opened tag.tag)).precede before.events := by
  have hsource : (inside before tag slot gap after).source raw ++ rest = before.source ++
      '<' :: (tag.content ++ ['>'] ++
        (slot.source raw ++ '<' :: (tag.closing gap ++ (after.source ++ rest)))) := by
    simp only [source, List.append_assoc, List.cons_append]
  rw [hsource, Forest.readFrom_source, readFrom_bracket,
    readMarkup_opened (nextMarkup_opened tag _), WrittenTag.name_tag]

/-- The markup is read the same whatever text is in the place. -/
theorem fault_readFrom_source {other : List Char} (hraw : '<' ∉ raw) (hother : '<' ∉ other)
    (slot : Slot) (opened : List (List Char)) (rest : List Char) :
    (readFrom opened (slot.source raw ++ rest)).fault =
      (readFrom opened (slot.source other ++ rest)).fault := by
  induction slot generalizing opened rest with
  | between before after ends =>
    rw [readFrom_between hraw, readFrom_between hother]
    simp only [Document.fault_precede, Document.fault_prependText]
  | inside before tag slot gap after ih =>
    rw [readFrom_inside, readFrom_inside, Document.fault_precede, Document.fault_precede]
    exact ih _ _

end Slot

end ResourceAudit.Xml
