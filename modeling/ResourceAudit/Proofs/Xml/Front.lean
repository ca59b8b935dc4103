import ResourceAudit.Proofs.Xml.Truncation

/-!
# ResourceAudit.Proofs.Xml.Front

Documents cut in two.  A `Front` is a text that ends between two parts of a
document: all of it is read without a fault, whatever elements are still open at
its end (`Front.around`).  What is read of a front does not depend on what comes
behind it, except that character data at its end joins the character data that
follows.  So the reader goes through the parts up to the last markup and then on
with the character data left over (`Front.exists_readFrom`); in front of markup
there is nothing left to join (`Front.readFrom_bracket`).

`Content` is a front in which every element is closed again, and reads the same
inside any element.
-/

namespace ResourceAudit.Xml

open ResourceAudit.Text

/-! ## events before a document -/

/-- A document behind events. -/
def Document.behind (events : List Event) (d : Document) : Document := ⟨events ++ d.events, d.fault⟩

@[simp] theorem Document.events_behind (events : List Event) (d : Document) :
    (d.behind events).events = events ++ d.events := rfl

@[simp] theorem Document.fault_behind (events : List Event) (d : Document) :
    (d.behind events).fault = d.fault := rfl

theorem Document.behind_append (events others : List Event) (d : Document) :
    d.behind (events ++ others) = (d.behind others).behind events := by
  simp [behind]

/-- The event of character data, if there is any. -/
def textEvents (raw : List Char) : List Event := if raw.isEmpty then [] else [.text raw]

theorem Document.prependText_eq_behind {d : Document}
    (h : ∀ more, d.events.head? ≠ some (.text more)) (raw : List Char) :
    d.prependText raw = d.behind (textEvents raw) := by
  by_cases hraw : raw = []
  · rw [hraw, prependText_nil]
    rfl
  · rw [prependText_of_not_text h hraw, textEvents, if_neg (by simpa using hraw)]
    rfl

/-- Character data alone. -/
theorem events_readFrom_raw (opened : List (List Char)) {raw : List Char} (h : '<' ∉ raw) :
    readFrom opened raw = ⟨textEvents raw, none⟩ := by
  have hread := readFrom_append opened h []
  rw [List.append_nil, readFrom_nil, Document.prependText_eq_behind (by simp)] at hread
  rw [hread, Document.behind, List.append_nil]

/-! ## open elements -/

/-- The tags of the elements that are open behind events, innermost first, with
some open before them. -/
def openTags (around : List Tag) : List Event → List Tag
  | [] => around
  | .opened tag :: rest => openTags (tag :: around) rest
  | .closed _ :: rest => openTags around.tail rest
  | .empty _ :: rest => openTags around rest
  | .text _ :: rest => openTags around rest
  | .cdata _ :: rest => openTags around rest
  | .other :: rest => openTags around rest

theorem openTags_append (around : List Tag) (events others : List Event) :
    openTags around (events ++ others) = openTags (openTags around events) others := by
  induction events generalizing around with
  | nil => rfl
  | cons event rest ih => cases event <;> exact ih _

@[simp] theorem openTags_textEvents (around : List Tag) (raw : List Char) :
    openTags around (textEvents raw) = around := by
  unfold textEvents
  split <;> rfl

/-- The tags of open elements are as many as there are open elements. -/
theorem length_openTags (around : List Tag) {events : List Event} {n : Nat}
    (h : openAfter around.length events = some n) : (openTags around events).length = n := by
  induction events generalizing around with
  | nil => exact Option.some.inj h
  | cons event rest ih =>
    cases event with
    | closed name =>
      rw [openAfter] at h
      split at h
      · cases h
      · exact ih _ (by rwa [List.length_tail])
    | _ => exact ih _ h

/-- What is closed behind further elements does not touch them. -/
theorem openTags_append_outer (inner outer : List Tag) {events : List Event} {n : Nat}
    (h : openAfter inner.length events = some n) :
    openTags (inner ++ outer) events = openTags inner events ++ outer := by
  induction events generalizing inner with
  | nil => rfl
  | cons event rest ih =>
    cases event with
    | closed name =>
      rw [openAfter] at h
      split at h
      · cases h
      · next hne =>
        have hinner : inner ≠ [] := by
          rintro rfl
          exact hne rfl
        rw [openTags, openTags, List.tail_append_of_ne_nil hinner]
        exact ih _ (by rwa [List.length_tail])
    | «opened» tag => exact ih (tag :: inner) h
    | _ => exact ih _ h

/-- What closes all that it opens leaves the open elements as they were. -/
theorem openTags_of_balanced {events : List Event} (h : openAfter 0 events = some 0)
    (around : List Tag) : openTags around events = around := by
  have hnone : openTags [] events = [] :=
    List.eq_nil_of_length_eq_zero (length_openTags [] h)
  have houter := openTags_append_outer [] around h
  rwa [hnone] at houter

/-- No markup is read as the end of an element before it is matched. -/
theorem nextMarkup_ne_closed (markup name after : List Char) :
    nextMarkup markup ≠ .ok (.event (.closed name), after) := by
  intro h
  rw [nextMarkup.eq_def] at h
  dsimp only at h
  repeat' split at h
  all_goals simp [openingEvent] at h
  all_goals split at h <;> simp at h

/-- Markup that is read without a fault is read as one event, whatever comes behind
it and whatever elements are open further out. -/
theorem readMarkup_eq_cons {around : List Tag} {markup : List Char}
    (h : (readMarkup (around.map Tag.name) markup).fault = none) :
    ∃ event after, after.length ≤ markup.length ∧
      ∀ outer t, readMarkup (around.map Tag.name ++ outer) (markup ++ t) =
        (readFrom ((openTags around [event]).map Tag.name ++ outer) (after ++ t)).cons event := by
  cases hread : nextMarkup markup with
  | error fault => simp [readMarkup, hread] at h
  | ok read =>
    obtain ⟨piece, after⟩ := read
    have hextend := nextMarkup_extend hread
    have hlength := nextMarkup_length hread
    cases piece with
    | event event =>
      refine ⟨event, after, hlength, fun outer t => ?_⟩
      cases event with
      | «opened» tag => exact readMarkup_opened (hextend t) _
      | closed name => exact absurd hread (nextMarkup_ne_closed _ _ _)
      | _ => exact readMarkup_event (hextend t) (by simp) _
    | close name =>
      cases around with
      | nil => simp [readMarkup, hread] at h
      | cons tag around =>
        have hname : name = tag.name := by
          by_contra hne
          simp [readMarkup, hread, hne] at h
        subst hname
        exact ⟨.closed tag.name, after, hlength, fun outer t => readMarkup_close (hextend t) _⟩

/-- Where a text is read without a fault, a longer one is read on from the
character data that the text ends in, inside any elements. -/
theorem exists_readFrom_append (around : List Tag) {s : List Char}
    (h : (readFrom (around.map Tag.name) s).fault = none) :
    ∃ events raw, '<' ∉ raw ∧
      (readFrom (around.map Tag.name) s).events = events ++ textEvents raw ∧
      ∀ outer t, readFrom (around.map Tag.name ++ outer) (s ++ t) =
        (readFrom ((openTags around events).map Tag.name ++ outer) (raw ++ t)).behind events := by
  by_cases hs : '<' ∈ s
  · obtain ⟨front, markup, hsplit, hfront⟩ := List.eq_append_cons_of_mem hs
    have hread : ∀ opened t, readFrom opened (s ++ t) =
        (readMarkup opened (markup ++ t)).behind (textEvents front) := fun opened t => by
      rw [hsplit, List.append_assoc, readFrom_append opened hfront, List.cons_append,
        readFrom_bracket, Document.prependText_eq_behind (head?_readMarkup _ _)]
    have hwhole := hread (around.map Tag.name) []
    rw [List.append_nil, List.append_nil] at hwhole
    rw [hwhole] at h ⊢
    obtain ⟨event, after, hlength, hmarkup⟩ := readMarkup_eq_cons h
    have hshort : after.length < s.length := by
      rw [hsplit, List.length_append, List.length_cons]
      omega
    have hmarkup' := hmarkup [] []
    simp only [List.append_nil] at hmarkup'
    rw [hmarkup'] at h ⊢
    obtain ⟨events, raw, hraw, hevents, hafter⟩ := exists_readFrom_append _ h
    refine ⟨textEvents front ++ event :: events, raw, hraw, ?_, fun outer t => ?_⟩
    · rw [Document.events_behind, Document.events_cons, hevents, List.append_assoc,
        List.cons_append]
    · rw [hread, hmarkup, hafter, openTags_append, openTags_textEvents,
        ← List.singleton_append (l := events), openTags_append, Document.behind_append]
      rfl
  · exact ⟨[], s, hs, congrArg Document.events (events_readFrom_raw _ hs), fun _ _ => rfl⟩
termination_by s.length

/-- In front of markup a text is read to its end. -/
theorem readFrom_append_bracket (around : List Tag) {s : List Char}
    (h : (readFrom (around.map Tag.name) s).fault = none) (outer : List (List Char))
    (markup : List Char) :
    readFrom (around.map Tag.name ++ outer) (s ++ '<' :: markup) =
      (readFrom ((openTags around (readFrom (around.map Tag.name) s).events).map Tag.name ++ outer)
        ('<' :: markup)).behind (readFrom (around.map Tag.name) s).events := by
  obtain ⟨events, raw, hraw, hevents, hread⟩ := exists_readFrom_append around h
  rw [hevents, openTags_append, openTags_textEvents, Document.behind_append, hread,
    readFrom_append _ hraw, readFrom_bracket,
    Document.prependText_eq_behind (head?_readMarkup _ _)]

/-! ## fronts -/

/-- A text that ends between two parts of a document. -/
structure Front where
  chars : List Char
  fault_eq_none : (readFrom [] chars).fault = none

namespace Front

/-- The parts of a front. -/
def events (f : Front) : List Event := (readFrom [] f.chars).events

/-- The tags of the elements that are open at the end, innermost first. -/
def around (f : Front) : List Tag := openTags [] f.events

/-- The names of these elements. -/
def opened (f : Front) : List (List Char) := f.around.map Tag.name

/-- The reader goes through the front up to the character data it ends in, and on from
there with what follows. -/
theorem exists_readFrom (f : Front) :
    ∃ events raw, '<' ∉ raw ∧ f.events = events ++ textEvents raw ∧
      ∀ t, readFrom [] (f.chars ++ t) = (readFrom f.opened (raw ++ t)).behind events := by
  obtain ⟨events, raw, hraw, hevents, hread⟩ :=
    exists_readFrom_append [] f.fault_eq_none
  refine ⟨events, raw, hraw, hevents, fun t => ?_⟩
  have haround : f.around = openTags [] events := by
    rw [around, Front.events]
    exact (congrArg _ hevents).trans (by rw [openTags_append, openTags_textEvents])
  rw [opened, haround]
  have h := hread [] t
  rwa [List.append_nil, List.append_nil] at h

/-- Markup is read behind the parts of the front. -/
theorem readFrom_bracket (f : Front) (markup : List Char) :
    readFrom [] (f.chars ++ '<' :: markup) = (readFrom f.opened ('<' :: markup)).behind f.events := by
  have h := readFrom_append_bracket [] f.fault_eq_none [] markup
  rwa [List.append_nil, List.append_nil] at h

/-- Whether there is a fault behind a front depends on the elements that are open. -/
theorem fault_readFrom_append (f : Front) (rest : List Char) :
    (readFrom [] (f.chars ++ rest)).fault = (readFrom f.opened rest).fault := by
  obtain ⟨events, raw, hraw, -, hread⟩ := f.exists_readFrom
  rw [hread, Document.fault_behind, readFrom_append _ hraw, Document.fault_prependText]

end Front

/-- A text of whole elements and what stands between them. -/
structure Content extends Front where
  balanced : openAfter 0 toFront.events = some 0

/-- Content is read the same in front of markup inside any elements. -/
theorem Content.readFrom_bracket (c : Content) (opened : List (List Char)) (markup : List Char) :
    readFrom opened (c.chars ++ '<' :: markup) =
      (readFrom opened ('<' :: markup)).behind c.events := by
  have h := readFrom_append_bracket [] c.fault_eq_none opened markup
  have hnone : openTags [] (readFrom [] c.chars).events = [] := openTags_of_balanced c.balanced []
  rw [List.map_nil, List.nil_append, hnone] at h
  exact h

/-! ## elements -/

/-- No content. -/
def Content.none : Content :=
  ⟨⟨[], by rw [readFrom_nil]⟩, by rw [Front.events, readFrom_nil]; rfl⟩

/-- Well-formed content. -/
def Content.ofForest (f : Forest) : Content where
  chars := f.source
  fault_eq_none := by rw [f.readFrom_source_nil, Document.fault_precede]
  balanced := by
    rw [Front.events, f.readFrom_source_nil, openAfter_precede, f.openAfter_events]
    rfl

/-- An element as it is written, whether its attributes and its text can be read or
not. -/
inductive RawElement where
  /-- Written as one tag. -/
  | empty (tag : RawTag)
  /-- With the white space in its closing tag. -/
  | full (tag : RawTag) (content : Content) (gap : Gap)

namespace RawElement

def tag : RawElement → RawTag
  | .empty tag => tag
  | .full tag .. => tag

/-- The text of an element behind its opening bracket. -/
def markup : RawElement → List Char
  | .empty tag => tag.content ++ "/>".toList
  | .full tag content gap => tag.content ++ ['>'] ++ (content.chars ++ '<' :: tag.name.closing gap)

/-- The text of an element. -/
def source (e : RawElement) : List Char := '<' :: e.markup

/-- The events of an element. -/
def events : RawElement → List Event
  | .empty tag => [.empty tag.tag]
  | .full tag content _ => .opened tag.tag :: (content.events ++ [.closed tag.name.chars])

theorem events_full_none (tag : RawTag) (gap : Gap) :
    (full tag .none gap).events = [.opened tag.tag, .closed tag.name.chars] := by
  have hnone : Content.none.events = [] := congrArg Document.events (readFrom_nil [])
  rw [events, hnone, List.nil_append]

/-- An element is read before what stands behind it. -/
theorem readFrom_source (e : RawElement) (opened : List (List Char)) (rest : List Char) :
    readFrom opened (e.source ++ rest) = (readFrom opened rest).behind e.events := by
  rw [source, List.cons_append, Xml.readFrom_bracket]
  cases e with
  | empty tag => exact readMarkup_event (tag.nextMarkup_empty rest) (by simp) opened
  | full tag content gap =>
    have hopened := readMarkup_opened
      (tag.nextMarkup_opened (content.chars ++ '<' :: (tag.name.closing gap ++ rest))) opened
    have hclosed := readMarkup_close (tag.name.nextMarkup_closing gap rest) opened
    have hmarkup : (full tag content gap).markup ++ rest =
        tag.content ++ ['>'] ++ (content.chars ++ '<' :: (tag.name.closing gap ++ rest)) := by
      simp only [markup, List.append_assoc, List.cons_append]
    rw [hmarkup, hopened, tag.name_tag, content.readFrom_bracket, Xml.readFrom_bracket, hclosed]
    simp [Document.behind, Document.cons, events]

end RawElement

/-- An element is read behind the parts of the front. -/
theorem Front.readFrom_element (f : Front) (e : RawElement) (rest : List Char) :
    readFrom [] (f.chars ++ e.source ++ rest) =
      (readFrom f.opened rest).behind (f.events ++ e.events) := by
  rw [List.append_assoc, RawElement.source, List.cons_append, f.readFrom_bracket,
    ← List.cons_append, ← RawElement.source, e.readFrom_source, Document.behind_append]

/-- To go through a text is to go through its front and then through what follows,
if character data does not count in between. -/
theorem Front.foldlM_append {ε σ : Type} {step : σ → Event → Except ε σ} (f : Front) {x y : σ}
    (h : f.events.foldlM step x = .ok y) (hy : ∀ raw, step y (.text raw) = .ok y)
    (hlast : ∀ z raw, step z (.text raw) = .ok y → z = y) (rest : List Char) :
    (readFrom [] (f.chars ++ rest)).events.foldlM step x =
      (readFrom f.opened rest).events.foldlM step y := by
  obtain ⟨events, raw, hraw, hevents, hread⟩ := f.exists_readFrom
  have hbefore : events.foldlM step x = .ok y := by
    rw [hevents, List.foldlM_append] at h
    cases hz : events.foldlM step x with
    | error fault =>
      rw [hz] at h
      cases h
    | ok z =>
      rw [hz] at h
      change (textEvents raw).foldlM step z = .ok y at h
      rw [textEvents] at h
      split at h
      · exact congrArg Except.ok (Except.ok.inj h)
      · simp only [List.foldlM_cons, List.foldlM_nil, bind_pure] at h
        exact congrArg Except.ok (hlast z raw h)
  rw [hread, Document.events_behind, List.foldlM_append, hbefore, readFrom_append _ hraw]
  exact foldlM_prependText_of_ignored hy raw _

end ResourceAudit.Xml
