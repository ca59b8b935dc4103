import ResourceAudit.Xml.Attribute

/-!
# ResourceAudit.Xml.Document

A document as the list of what it consists of, in order.  Reading stops at the
first fault of the markup itself: everything before it is delivered, and the
fault comes last.  Attributes and references are left as written, since a
reader of the document looks at few of them (`Tag.attribute?`, `expand`).
-/

namespace ResourceAudit.Xml

open ResourceAudit.Text

/-- A part of a document.  Comments, declarations and instructions carry
nothing that a reader wants. -/
inductive Event where
  | opened (tag : Tag)
  /-- An element without content, written as one tag. -/
  | empty (tag : Tag)
  | closed (name : List Char)
  | text (raw : List Char)
  | cdata (text : List Char)
  | other
  deriving DecidableEq, Repr

/-- Why markup cannot be read further. -/
inductive MarkupFault where
  | unknownMarkup
  | unclosedComment
  | unclosedCdata
  | unclosedDoctype
  | unclosedInstruction
  | unclosedTag
  | unnamedDoctype
  | mismatchedClose (expected found : String)
  | unmatchedClose (found : String)
  deriving DecidableEq, Repr

def MarkupFault.message : MarkupFault → String
  | .unknownMarkup => "syntax error: unknown or missed symbol in markup"
  | .unclosedComment => unclosed "comment" "-->"
  | .unclosedCdata => unclosed "CDATA" "]]>"
  | .unclosedDoctype => unclosed "DOCTYPE" ">"
  | .unclosedInstruction => unclosed "processing instruction or xml declaration" "?>"
  | .unclosedTag => unclosed "tag" ">"
  | .unnamedDoctype =>
    "ill-formed document: \x60<!DOCTYPE>\x60 declaration does not contain a name of a document type"
  | .mismatchedClose expected found =>
    s!"ill-formed document: expected \x60</{expected}>\x60, but \x60</{found}>\x60 was found"
  | .unmatchedClose found =>
    s!"ill-formed document: close tag \x60</{found}>\x60 does not match any open tag"
where
  /-- Says which end is missing. -/
  unclosed (what closer : String) : String :=
    s!"syntax error: {what} not closed: \x60{closer}\x60 not found before end of input"

/-- What was read of a document, and why no more of it. -/
structure Document where
  events : List Event
  fault : Option MarkupFault
  deriving DecidableEq, Repr

/-- The document that begins with `event` and goes on with `d`. -/
def Document.cons (event : Event) (d : Document) : Document := ⟨event :: d.events, d.fault⟩

/-! ## single pieces of markup -/

/-- A text cut in two, with one more character at its front. -/
def prepend (c : Char) : Option (List Char × List Char) → Option (List Char × List Char)
  | some (inside, after) => some (c :: inside, after)
  | none => none

/-- The content of a tag and the text after its closing bracket.  `quote` is the
quotation mark that is open: brackets between quotation marks do not count. -/
def cutTag (quote : Option Char) : List Char → Option (List Char × List Char)
  | [] => none
  | c :: rest =>
    match quote with
    | some q => prepend c (cutTag (if c = q then none else some q) rest)
    | none =>
      if c = '>' then some ([], rest)
      else prepend c (cutTag (if c = '"' ∨ c = '\'' then some c else none) rest)

/-- The text of a document type declaration and the text after it, with so
many angle brackets open inside it. -/
def cutDoctype (depth : Nat) : List Char → Option (List Char × List Char)
  | [] => none
  | c :: rest =>
    if c = '<' then prepend c (cutDoctype (depth + 1) rest)
    else if c = '>' then
      if depth = 0 then some ([], rest) else prepend c (cutDoctype (depth - 1) rest)
    else prepend c (cutDoctype depth rest)

/-- Markup as it is written, before closing tags are matched. -/
inductive Piece where
  | event (event : Event)
  | close (name : List Char)

/-- The name in a closing tag, which white space may follow. -/
def closingName (content : List Char) : List Char :=
  if content.all isMarkupSpace then content
  else (content.reverse.dropWhile isMarkupSpace).reverse

/-- The event of an opening tag. -/
def openingEvent (content : List Char) : Event :=
  match content.getLast? with
  | some '/' => .empty ⟨content.dropLast⟩
  | _ => .opened ⟨content⟩

/-- The markup behind an opening angle bracket, and the text after it. -/
def nextMarkup (s : List Char) : Except MarkupFault (Piece × List Char) :=
  match s with
  | [] => .error .unclosedTag
  | '!' :: '-' :: '-' :: inside =>
    match cutAt "-->".toList inside with
    | some (_, after) => .ok (.event .other, after)
    | none => .error .unclosedComment
  | '!' :: '-' :: _ => .error .unclosedComment
  | '!' :: '[' :: rest =>
    let lead := "CDATA[".toList
    if lead.isPrefixOf rest then
      match cutAt "]]>".toList (rest.drop lead.length) with
      | some (text, after) => .ok (.event (.cdata text), after)
      | none => .error .unclosedCdata
    else .error .unclosedCdata
  | '!' :: rest =>
    let lead := "DOCTYPE".toList
    if rest.head?.any (·.toLower == 'd') then
      match cutDoctype 0 rest with
      | none => .error .unclosedDoctype
      | some (inside, after) =>
        if (inside.take lead.length).map Char.toUpper = lead then
          if (inside.drop lead.length).all isMarkupSpace then .error .unnamedDoctype
          else .ok (.event .other, after)
        else .error .unclosedDoctype
    else .error .unknownMarkup
  | '?' :: '>' :: _ => .error .unclosedInstruction
  | '?' :: rest =>
    match cutAt "?>".toList rest with
    | some (_, after) => .ok (.event .other, after)
    | none => .error .unclosedInstruction
  | '/' :: rest =>
    match cutTag none rest with
    | some (content, after) => .ok (.close (closingName content), after)
    | none => .error .unclosedTag
  | _ =>
    match cutTag none s with
    | some (content, after) => .ok (.event (openingEvent content), after)
    | none => .error .unclosedTag

theorem eq_some_of_prepend {c : Char} {cut : Option (List Char × List Char)}
    {inside after : List Char} (h : prepend c cut = some (inside, after)) :
    ∃ before, cut = some (before, after) := by
  unfold prepend at h
  split at h
  · next before rest =>
    simp only [Option.some.injEq, Prod.mk.injEq] at h
    exact ⟨before, by rw [h.2]⟩
  · simp at h

theorem cutTag_length {quote : Option Char} {s inside after : List Char}
    (h : cutTag quote s = some (inside, after)) : after.length < s.length := by
  induction s generalizing quote inside with
  | nil => simp [cutTag] at h
  | cons c rest ih =>
    rw [cutTag.eq_def] at h
    grind [eq_some_of_prepend]

theorem cutDoctype_length {depth : Nat} {s inside after : List Char}
    (h : cutDoctype depth s = some (inside, after)) : after.length < s.length := by
  induction s generalizing depth inside with
  | nil => simp [cutDoctype] at h
  | cons c rest ih =>
    rw [cutDoctype] at h
    grind [eq_some_of_prepend]

theorem nextMarkup_length {s after : List Char} {piece : Piece}
    (h : nextMarkup s = .ok (piece, after)) : after.length ≤ s.length := by
  unfold nextMarkup at h
  split at h
  all_goals (try dsimp only at h)
  all_goals (repeat' split at h)
  all_goals simp only [Except.ok.injEq, Prod.mk.injEq, reduceCtorEq] at h
  all_goals obtain ⟨-, rfl⟩ := h
  all_goals (try simp only [List.length_cons])
  · next hc => have := cutAt_length_le hc; omega
  · next hc => have := cutAt_length_le hc; simp only [List.length_drop] at this; omega
  · next hc _ _ => have := cutDoctype_length hc; omega
  · next hc => have := cutAt_length_le hc; omega
  · next hc => have := cutTag_length hc; omega
  · next hc => have := cutTag_length hc; omega

/-! ## documents -/

/-- Reads on with the given elements open, innermost first. -/
def readFrom (opened : List (List Char)) (s : List Char) : Document :=
  let text := s.takeWhile (· != '<')
  let rest : Document :=
    match _h : s.drop text.length with
    | [] => ⟨[], none⟩
    | _ :: markup =>
      match _hm : nextMarkup markup with
      | .error fault => ⟨[], some fault⟩
      | .ok (.event (.opened tag), after) =>
        .cons (.opened tag) (readFrom (tag.name :: opened) after)
      | .ok (.event event, after) => .cons event (readFrom opened after)
      | .ok (.close name, after) =>
        match opened with
        | [] => ⟨[], some (.unmatchedClose (.ofList name))⟩
        | expected :: outer =>
          if name = expected then .cons (.closed name) (readFrom outer after)
          else ⟨[], some (.mismatchedClose (.ofList expected) (.ofList name))⟩
  if text.isEmpty then rest else .cons (.text text) rest
termination_by s.length
decreasing_by
  all_goals
    have hl := nextMarkup_length _hm
    have hd := congrArg List.length _h
    simp only [List.length_drop, List.length_cons] at hd hl ⊢
    omega

/-- The document a text holds, without the byte order mark it may begin with. -/
def Document.ofText : List Char → Document
  | '\uFEFF' :: rest => readFrom [] rest
  | s => readFrom [] s

end ResourceAudit.Xml
