import ResourceAudit.Proofs.Xml.Tag

/-!
# ResourceAudit.Proofs.Xml.Forest

Well-formed content of elements as a tree, and its reading.  A `Forest` is what
may stand between two tags, in the order of the text: character data, sections,
asides and elements, of any depth.  Everything it is built from is well-formed
by itself, so that a forest is well-formed by being one.

`readFrom_source` is the main statement: the reader delivers the events of a
forest in the order of the document and then reads on behind it.  Character
data that meets other character data comes as one event, so events are put
together by `Document.precede`; a reader that takes text piece by piece does
not see the difference (`foldlM_precede`).
-/

namespace ResourceAudit.Xml

open ResourceAudit.Text

/-! ## pieces -/

/-- The number of angle brackets open behind a text, with so many before it;
none if it closes more than there are. -/
def bracketDepth (depth : Nat) : List Char → Option Nat
  | [] => some depth
  | c :: rest =>
    if c = '<' then bracketDepth (depth + 1) rest
    else if c = '>' then if depth = 0 then none else bracketDepth (depth - 1) rest
    else bracketDepth depth rest

/-- Markup that carries nothing. -/
inductive Aside where
  /-- A comment, in which two hyphens never come together. -/
  | comment (chars : List Char) (h : ¬ ['-', '-'] <:+: chars ++ ['-'])
  /-- An instruction, or the declaration at the front of a document. -/
  | instruction (chars : List Char) (h : ¬ ['?', '>'] <:+: chars ∧ chars.head? ≠ some '>')
  /-- The declaration of a document type. -/
  | doctype (chars : List Char)
      (h : bracketDepth 0 chars = some 0 ∧ chars.all isMarkupSpace = false)
  deriving DecidableEq

/-- The text of an aside behind its opening bracket. -/
def Aside.markup : Aside → List Char
  | .comment chars _ => '!' :: '-' :: '-' :: chars ++ "-->".toList
  | .instruction chars _ => '?' :: chars ++ "?>".toList
  | .doctype chars _ => '!' :: "DOCTYPE".toList ++ chars ++ ['>']

/-- The text of a character data section. -/
structure Section where
  chars : List Char
  not_infix : ¬ "]]>".toList <:+: chars
  deriving DecidableEq

/-- The text of a section behind its opening bracket. -/
def Section.markup (s : Section) : List Char :=
  '!' :: '[' :: "CDATA[".toList ++ s.chars ++ "]]>".toList

/-! ## forests -/

/-- What may stand between two tags: its first piece and what comes next. -/
inductive Forest where
  | nil
  | text (spellings : List Spelling) (next : Forest)
  | cdata (s : Section) (next : Forest)
  | aside (a : Aside) (next : Forest)
  /-- An element without content, written as one tag. -/
  | empty (tag : WrittenTag) (next : Forest)
  /-- An element with what it holds and the white space in its closing tag. -/
  | element (tag : WrittenTag) (content : Forest) (gap : Gap) (next : Forest)
  deriving DecidableEq

namespace Forest

/-- The text of a forest. -/
def source : Forest → List Char
  | .nil => []
  | .text ss next => written ss ++ next.source
  | .cdata s next => '<' :: s.markup ++ next.source
  | .aside a next => '<' :: a.markup ++ next.source
  | .empty tag next => '<' :: tag.content ++ "/>".toList ++ next.source
  | .element tag content gap next =>
    '<' :: tag.content ++ '>' :: content.source ++ "</".toList ++ tag.name.chars ++ gap.chars ++
      '>' :: next.source

/-- An element with a name alone for its tag. -/
def plain (name : String) (content next : Forest) : Forest :=
  .element ⟨.ofText name, [], .none⟩ content .none next

/-- The events of a forest, in the order of the document. -/
def events : Forest → List Event
  | .nil => []
  | .text ss next => .text (written ss) :: next.events
  | .cdata s next => .cdata s.chars :: next.events
  | .aside _ next => .other :: next.events
  | .empty tag next => .empty tag.tag :: next.events
  | .element tag content _ next =>
    .opened tag.tag :: content.events ++ .closed tag.name.chars :: next.events

end Forest

/-! ## reading pieces -/

theorem nextMarkup_comment (chars : List Char) (h : ¬ ['-', '-'] <:+: chars ++ ['-'])
    (rest : List Char) :
    nextMarkup ('!' :: '-' :: '-' :: chars ++ "-->".toList ++ rest) = .ok (.event .other, rest) := by
  have hno : ¬ ['-', '-'] ++ ['>'] <:+: chars := fun hin =>
    h ((List.prefix_append _ _).isInfix.trans (hin.trans (List.prefix_append chars _).isInfix))
  have hcut : cutAt "-->".toList (chars ++ "-->".toList ++ rest) = some (chars, rest) :=
    cutAt_append (q := ['-', '-']) (z := '>') (by decide) hno rest
  simp only [List.cons_append, nextMarkup, hcut]

theorem nextMarkup_instruction (chars : List Char)
    (h : ¬ ['?', '>'] <:+: chars ∧ chars.head? ≠ some '>') (rest : List Char) :
    nextMarkup ('?' :: chars ++ "?>".toList ++ rest) = .ok (.event .other, rest) := by
  have hcut : cutAt "?>".toList (chars ++ "?>".toList ++ rest) = some (chars, rest) :=
    cutAt_append (q := ['?']) (z := '>') (by decide) h.1 rest
  have hhead : ∀ t, chars ++ "?>".toList ++ rest ≠ '>' :: t := by
    intro t ht
    cases chars with
    | nil => simp at ht
    | cons c cs => simp_all
  rw [List.cons_append, List.cons_append, nextMarkup, hcut]
  exact fun t ht => hhead t ht

/-- A document type declaration ends where its brackets are closed. -/
theorem cutDoctype_append {depth : Nat} {chars : List Char} (h : bracketDepth depth chars = some 0)
    (rest : List Char) : cutDoctype depth (chars ++ '>' :: rest) = some (chars, rest) := by
  induction chars generalizing depth with
  | nil =>
    simp only [bracketDepth, Option.some.injEq] at h
    rw [List.nil_append, cutDoctype, h]
    simp
  | cons c cs ih =>
    rw [bracketDepth] at h
    rw [List.cons_append, cutDoctype]
    split at h
    · next hc => rw [if_pos hc, ih h, prepend]
    · next hlt =>
      rw [if_neg hlt]
      split at h
      · next hgt =>
        split at h
        · simp at h
        · next hdepth => rw [if_pos hgt, if_neg hdepth, ih h, prepend]
      · next hgt => rw [if_neg hgt, ih h, prepend]

theorem nextMarkup_doctype (chars : List Char)
    (h : bracketDepth 0 chars = some 0 ∧ chars.all isMarkupSpace = false) (rest : List Char) :
    nextMarkup ('!' :: "DOCTYPE".toList ++ chars ++ ['>'] ++ rest) = .ok (.event .other, rest) := by
  have hcut : cutDoctype 0 ("DOCTYPE".toList ++ chars ++ '>' :: rest) =
      some ("DOCTYPE".toList ++ chars, rest) := by
    refine cutDoctype_append ?_ rest
    simpa [bracketDepth] using h.1
  have hsource : '!' :: "DOCTYPE".toList ++ chars ++ ['>'] ++ rest =
      '!' :: 'D' :: ("OCTYPE".toList ++ chars ++ '>' :: rest) := by simp
  have hdoctype : 'D' :: ("OCTYPE".toList ++ chars ++ '>' :: rest) =
      "DOCTYPE".toList ++ chars ++ '>' :: rest := by simp
  rw [hsource, nextMarkup]
  · rw [hdoctype, hcut]
    simp [h.2]
  all_goals simp

theorem nextMarkup_aside (a : Aside) (rest : List Char) :
    nextMarkup (a.markup ++ rest) = .ok (.event .other, rest) := by
  cases a with
  | comment chars h => exact nextMarkup_comment chars h rest
  | instruction chars h => exact nextMarkup_instruction chars h rest
  | doctype chars h => exact nextMarkup_doctype chars h rest

theorem nextMarkup_section (s : Section) (rest : List Char) :
    nextMarkup (s.markup ++ rest) = .ok (.event (.cdata s.chars), rest) := by
  have hcut : cutAt "]]>".toList (s.chars ++ "]]>".toList ++ rest) = some (s.chars, rest) :=
    cutAt_append (q := [']', ']']) (z := '>') (by decide) s.not_infix rest
  have hsource : s.markup ++ rest =
      '!' :: '[' :: ("CDATA[".toList ++ (s.chars ++ "]]>".toList ++ rest)) := by
    simp only [Section.markup, List.cons_append, List.append_assoc]
  have hlead : ∀ t : List Char, "CDATA[".toList.isPrefixOf ("CDATA[".toList ++ t) = true := by
    intro t
    rw [List.isPrefixOf_iff_prefix]
    exact List.prefix_append _ _
  rw [hsource, nextMarkup]
  simp only [hlead, if_true, List.drop_left, hcut]

/-! ## reading forests -/

namespace Forest

theorem source_element (t : WrittenTag) (content : Forest) (gap : Gap) (next : Forest) :
    (element t content gap next).source =
      '<' :: (t.content ++ ['>'] ++ (content.source ++ '<' :: (t.closing gap ++ next.source))) := by
  simp [source, WrittenTag.closing]

/-- The events of a forest come in front of what is read behind it. -/
theorem readFrom_source (f : Forest) (opened : List (List Char)) (rest : List Char) :
    readFrom opened (f.source ++ rest) = (readFrom opened rest).precede f.events := by
  induction f generalizing opened rest with
  | nil => rfl
  | text ss next ih =>
    rw [source, List.append_assoc, readFrom_append opened (lt_not_mem_written ss), ih]
    rfl
  | cdata s next ih =>
    have hm := nextMarkup_section s (next.source ++ rest)
    rw [source, List.cons_append, List.cons_append, List.append_assoc, readFrom_bracket,
      readMarkup_event hm (by simp), ih]
    rfl
  | aside a next ih =>
    have hm := nextMarkup_aside a (next.source ++ rest)
    rw [source, List.cons_append, List.cons_append, List.append_assoc, readFrom_bracket,
      readMarkup_event hm (by simp), ih]
    rfl
  | empty t next ih =>
    have hm := nextMarkup_empty t (next.source ++ rest)
    have hsource : (empty t next).source ++ rest =
        '<' :: (t.content ++ "/>".toList ++ (next.source ++ rest)) := by simp [source]
    rw [hsource, readFrom_bracket, readMarkup_event hm (by simp), ih]
    rfl
  | element t content gap next ihContent ihNext =>
    have hsource : (element t content gap next).source ++ rest =
        '<' :: (t.content ++ ['>'] ++ (content.source ++
          '<' :: (t.closing gap ++ (next.source ++ rest)))) := by
      simp [source_element]
    rw [hsource, readFrom_bracket, readMarkup_opened (nextMarkup_opened t _), ihContent,
      WrittenTag.name_tag, readFrom_bracket, readMarkup_close (nextMarkup_closing t gap _), ihNext,
      events, List.cons_append, Document.precede_cons, Document.precede_append]
    rfl

/-- The character data of a forest is written in spellings. -/
theorem exists_spellings (f : Forest) {raw : List Char} (h : .text raw ∈ f.events) :
    ∃ ss, raw = written ss := by
  induction f with
  | nil => simp [events] at h
  | text ss next ih =>
    simp only [events, List.mem_cons, Event.text.injEq] at h
    rcases h with rfl | h
    · exact ⟨ss, rfl⟩
    · exact ih h
  | cdata _ _ ih | aside _ _ ih | empty _ _ ih =>
    simp only [events, List.mem_cons, reduceCtorEq, false_or] at h
    exact ih h
  | element t content gap next ihContent ihNext =>
    simp only [events, List.cons_append, List.mem_cons, List.mem_append, reduceCtorEq,
      false_or] at h
    rcases h with h | h
    · exact ihContent h
    · exact ihNext h

/-- A forest is read whole. -/
theorem readFrom_source_nil (f : Forest) :
    readFrom [] f.source = Document.precede f.events ⟨[], none⟩ := by
  have h := f.readFrom_source [] []
  rwa [List.append_nil, readFrom_nil] at h

/-- To go through an element is to go through its tag, what it holds and its
closing tag. -/
theorem foldlM_element {σ : Type} {step : σ → Event → Option σ} {t : WrittenTag}
    {content next : Forest} {gap : Gap} {x y z w : σ} (hopened : step x (.opened t.tag) = some y)
    (hcontent : content.events.foldlM step y = some z)
    (hclosed : step z (.closed t.name.chars) = some w) :
    (element t content gap next).events.foldlM step x = next.events.foldlM step w := by
  rw [events, List.cons_append, List.foldlM_cons, hopened, Option.bind_eq_bind, Option.bind_some,
    List.foldlM_append, hcontent, Option.bind_eq_bind, Option.bind_some, List.foldlM_cons, hclosed,
    Option.bind_eq_bind, Option.bind_some]

/-- A document that holds a forest has no fault. -/
theorem fault_ofText_source (f : Forest) : (Document.ofText f.source).fault = none := by
  rw [fault_ofText, readFrom_source_nil, Document.fault_precede]

/-- To go through a document with a forest in front is to go through the forest and
then the document. -/
theorem foldlM_precede_events {σ : Type} {step : σ → Event → Option σ} (h : TakesPieces step)
    (f : Forest) (d : Document) (x : σ) :
    (d.precede f.events).events.foldlM step x =
      (f.events.foldlM step x).bind fun y => d.events.foldlM step y :=
  foldlM_precede h (fun _ hraw => f.exists_spellings hraw) d x

/-- To go through a document that holds a forest is to go through the events of
the forest. -/
theorem foldlM_ofText_source {σ : Type} {step : σ → Event → Option σ} (h : TakesPieces step)
    {x : σ} (hx : ∀ raw, step x (.text raw) = some x) (f : Forest) :
    (Document.ofText f.source).events.foldlM step x = f.events.foldlM step x := by
  rw [foldlM_ofText hx, readFrom_source_nil, foldlM_precede_events h]
  exact Option.bind_fun_some _

end Forest

end ResourceAudit.Xml
