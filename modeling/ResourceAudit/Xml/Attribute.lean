import ResourceAudit.Xml.Reference

/-!
# ResourceAudit.Xml.Attribute

The tags of elements and their attributes.  Attributes are read from the front
only as far as the one that is looked for: a fault after it does not show.
Positions count bytes from the beginning of the name of the element.
-/

namespace ResourceAudit.Xml

open ResourceAudit.Text

/-- The white space of markup. -/
def isMarkupSpace (c : Char) : Bool := c == ' ' || c == '\t' || c == '\n' || c == '\r'

/-- The tag of an element: what stands between its angle brackets, without the
slash of an empty element. -/
structure Tag where
  content : List Char
  deriving DecidableEq, Repr

/-- The name of the element. -/
def Tag.name (tag : Tag) : List Char := tag.content.takeWhile (!isMarkupSpace ·)

/-- The name of the element behind its namespace. -/
def Tag.localName (tag : Tag) : List Char :=
  match cutAt [':'] tag.name with
  | some (_, after) => after
  | none => tag.name

/-- Why the attributes of a tag cannot be read, with the position. -/
inductive AttributeFault where
  | noEquals (position : Nat)
  | noValue (position : Nat)
  | unquoted (position : Nat)
  | noClosingQuote (position : Nat) (quote : Char)
  deriving DecidableEq, Repr

def AttributeFault.message : AttributeFault → String
  | .noEquals position =>
    s!"position {position}: attribute key must be directly followed by \x60=\x60 or space"
  | .noValue position => s!"position {position}: \x60=\x60 must be followed by an attribute value"
  | .unquoted position =>
    s!"position {position}: attribute value must be enclosed in \x60\"\x60 or \x60'\x60"
  | .noClosingQuote position quote =>
    s!"position {position}: missing closing quote \x60{quote}\x60 in attribute value"

/-- An attribute whose value is as written, with its references. -/
structure Attribute where
  key : List Char
  rawValue : List Char
  deriving DecidableEq, Repr

/-- The first attribute of a text that ends at the byte `size`, and the text
after it. -/
def nextAttribute (size : Nat) (s : List Char) :
    Except AttributeFault (Option (Attribute × List Char)) :=
  let at_ (rest : List Char) : Nat := size - byteLength rest
  match s.dropWhile isMarkupSpace with
  | [] => .ok none
  | first :: rest =>
    let others := rest.takeWhile fun c => c != '=' && !isMarkupSpace c
    match (rest.drop others.length).dropWhile isMarkupSpace with
    | '=' :: afterEquals =>
      match afterEquals.dropWhile isMarkupSpace with
      | [] => .error (.noValue size)
      | quote :: inside =>
        if quote == '"' || quote == '\'' then
          match cutAt [quote] inside with
          | some (value, after) => .ok (some (⟨first :: others, value⟩, after))
          | none => .error (.noClosingQuote size quote)
        else .error (.unquoted (at_ (quote :: inside)))
    | after => .error (.noEquals (at_ after))

theorem nextAttribute_length {size : Nat} {s after : List Char} {a : Attribute}
    (h : nextAttribute size s = .ok (some (a, after))) : after.length < s.length := by
  unfold nextAttribute at h
  have hs := (List.dropWhile_suffix isMarkupSpace (l := s)).length_le
  split at h
  · simp at h
  · next first rest hfirst =>
    have hd := (List.dropWhile_suffix isMarkupSpace
      (l := rest.drop (rest.takeWhile fun c => c != '=' && !isMarkupSpace c).length)).length_le
    dsimp only at h
    split at h
    · next afterEquals he =>
      have hv := (List.dropWhile_suffix isMarkupSpace (l := afterEquals)).length_le
      split at h
      · simp at h
      · next quote inside hq =>
        split at h
        · split at h
          · next value r hc =>
            have := cutAt_length_le hc
            simp only [Except.ok.injEq, Option.some.injEq, Prod.mk.injEq] at h
            obtain ⟨-, rfl⟩ := h
            simp only [hfirst, he, hq, List.length_cons, List.length_drop] at *
            omega
          · simp at h
        · simp at h
    · simp at h

/-- The attribute with the given key in a text that ends at the byte `size`. -/
def findAttribute (size : Nat) (key : List Char) (s : List Char) :
    Except AttributeFault (Option Attribute) :=
  match _h : nextAttribute size s with
  | .error fault => .error fault
  | .ok none => .ok none
  | .ok (some (a, after)) => if a.key = key then .ok (some a) else findAttribute size key after
termination_by s.length
decreasing_by exact nextAttribute_length _h

/-- The first attribute of a tag that has the given key. -/
def Tag.attribute? (tag : Tag) (key : String) : Except AttributeFault (Option Attribute) :=
  findAttribute (byteLength tag.content) key.toList (tag.content.drop tag.name.length)

end ResourceAudit.Xml
