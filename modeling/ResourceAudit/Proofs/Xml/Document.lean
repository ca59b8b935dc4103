import ResourceAudit.Proofs.Xml.Spelling
import ResourceAudit.Xml.Document
import Mathlib.Data.List.TakeWhile

/-!
# ResourceAudit.Proofs.Xml.Document

Documents put together from front to back.  The reader delivers character data
up to the next tag as one event, so a piece of it in front of a document joins
the character data that the document begins with (`Document.prependText`,
`readFrom_append`).  `Document.precede` puts events in front of a document in
this way, and a reader that takes character data piece by piece cannot tell
(`foldlM_precede`).
-/

namespace ResourceAudit.Xml

/-! ## events in front of a document -/

/-- A document with character data in front of it. -/
def Document.prependText (raw : List Char) (d : Document) : Document :=
  if raw.isEmpty then d
  else
    match d.events with
    | .text more :: others => ⟨.text (raw ++ more) :: others, d.fault⟩
    | _ => d.cons (.text raw)

/-- A document with one event in front of it. -/
def Document.prepend (event : Event) (d : Document) : Document :=
  match event with
  | .text raw => d.prependText raw
  | event => d.cons event

/-- A document with events in front of it. -/
def Document.precede (events : List Event) (d : Document) : Document :=
  events.foldr Document.prepend d

namespace Document

@[simp] theorem events_cons (event : Event) (d : Document) :
    (d.cons event).events = event :: d.events := rfl

@[simp] theorem prependText_nil (d : Document) : d.prependText [] = d := rfl

@[simp] theorem fault_prependText (raw : List Char) (d : Document) :
    (d.prependText raw).fault = d.fault := by
  unfold prependText
  split
  · rfl
  · split <;> rfl

theorem prependText_of_not_text {d : Document} (h : ∀ more, d.events.head? ≠ some (.text more))
    {raw : List Char} (hraw : raw ≠ []) : d.prependText raw = d.cons (.text raw) := by
  rw [prependText, if_neg (by simpa using hraw)]
  split
  · next more others he => simp [he] at h
  · rfl

/-- Two pieces of character data are one piece. -/
theorem prependText_prependText (raw more : List Char) (d : Document) :
    (d.prependText more).prependText raw = d.prependText (raw ++ more) := by
  by_cases hmore : more = []
  · rw [hmore, prependText_nil, List.append_nil]
  by_cases hraw : raw = []
  · rw [hraw, prependText_nil, List.nil_append]
  cases hd : d.events with
  | nil => simp [prependText, cons, hmore, hraw, hd]
  | cons event others => cases event <;> simp [prependText, cons, hmore, hraw, hd]

@[simp] theorem precede_cons (event : Event) (events : List Event) (d : Document) :
    d.precede (event :: events) = (d.precede events).prepend event := rfl

@[simp] theorem precede_append (events others : List Event) (d : Document) :
    d.precede (events ++ others) = (d.precede others).precede events :=
  List.foldr_append

@[simp] theorem fault_precede (events : List Event) (d : Document) :
    (d.precede events).fault = d.fault := by
  induction events with
  | nil => rfl
  | cons event rest ih =>
    rw [precede_cons]
    cases event with
    | text raw => rw [prepend, fault_prependText, ih]
    | _ => exact ih

end Document

/-! ## reading character data -/

/-- No markup is character data. -/
theorem nextMarkup_ne_text (markup raw after : List Char) :
    nextMarkup markup ≠ .ok (.event (.text raw), after) := by
  intro h
  rw [nextMarkup.eq_def] at h
  dsimp only at h
  repeat' split at h
  all_goals simp [openingEvent] at h
  all_goals split at h <;> simp at h

/-- What is read behind an opening bracket. -/
def readMarkup (opened : List (List Char)) (markup : List Char) : Document :=
  match nextMarkup markup with
  | .error fault => ⟨[], some fault⟩
  | .ok (.event (.opened tag), after) => .cons (.opened tag) (readFrom (tag.name :: opened) after)
  | .ok (.event event, after) => .cons event (readFrom opened after)
  | .ok (.close name, after) =>
    match opened with
    | [] => ⟨[], some (.unmatchedClose (.ofList name))⟩
    | expected :: outer =>
      if name = expected then .cons (.closed name) (readFrom outer after)
      else ⟨[], some (.mismatchedClose (.ofList expected) (.ofList name))⟩

/-- What is read from the next opening bracket of a text on. -/
def readBracket (opened : List (List Char)) (s : List Char) : Document :=
  match s.dropWhile (· != '<') with
  | [] => ⟨[], none⟩
  | _ :: markup => readMarkup opened markup

/-- No markup is character data. -/
theorem head?_readMarkup (opened : List (List Char)) (markup raw : List Char) :
    (readMarkup opened markup).events.head? ≠ some (.text raw) := by
  unfold readMarkup
  split
  · simp
  · simp
  · next event after _ hm =>
    rw [Document.events_cons, List.head?_cons, ne_eq, Option.some.injEq]
    rintro rfl
    exact nextMarkup_ne_text _ _ _ hm
  · split
    · simp
    · split <;> simp

theorem head?_readBracket (opened : List (List Char)) (s raw : List Char) :
    (readBracket opened s).events.head? ≠ some (.text raw) := by
  unfold readBracket
  split
  · simp
  · exact head?_readMarkup opened _ raw

/-- One step of the reader: character data, then markup. -/
theorem readFrom_eq (opened : List (List Char)) (s : List Char) :
    readFrom opened s = (readBracket opened s).prependText (s.takeWhile (· != '<')) := by
  have hdrop : s.drop (s.takeWhile (· != '<')).length = s.dropWhile (· != '<') := by
    have hs : s.takeWhile (· != '<') ++ s.dropWhile (· != '<') = s :=
      List.takeWhile_append_dropWhile
    conv => lhs; arg 2; rw [← hs]
    exact List.drop_left
  have hstep : readFrom opened s =
      if (s.takeWhile (· != '<')).isEmpty then readBracket opened s
      else .cons (.text (s.takeWhile (· != '<'))) (readBracket opened s) := by
    rw [readFrom]
    refine ite_congr rfl (fun _ => ?_) (fun _ => congrArg (Document.cons _) ?_)
    all_goals
      rw [readBracket]
      split
      · next h => rw [← hdrop, h]
      · next bracket markup h =>
        rw [← hdrop, h]
        dsimp only
        unfold readMarkup
        split
        · next hm => rw [hm]
        · next hm => rw [hm]
        · next event after hne hm =>
          rw [hm]
          cases event with
          | «opened» tag => exact absurd rfl (hne tag)
          | _ => rfl
        · next hm => cases opened <;> rw [hm]
  rw [hstep]
  split
  · next hempty => rw [List.isEmpty_iff.1 hempty, Document.prependText_nil]
  · next hempty =>
    rw [Document.prependText_of_not_text (head?_readBracket opened s) (by simpa using hempty)]

theorem readFrom_nil (opened : List (List Char)) : readFrom opened [] = ⟨[], none⟩ := by
  rw [readFrom_eq]
  rfl

theorem readFrom_bracket (opened : List (List Char)) (markup : List Char) :
    readFrom opened ('<' :: markup) = readMarkup opened markup := by
  rw [readFrom_eq]
  rfl

theorem readMarkup_event {markup after : List Char} {event : Event}
    (h : nextMarkup markup = .ok (.event event, after)) (hopened : ∀ tag, event ≠ .opened tag)
    (opened : List (List Char)) :
    readMarkup opened markup = .cons event (readFrom opened after) := by
  rw [readMarkup, h]
  cases event with
  | «opened» tag => exact absurd rfl (hopened tag)
  | _ => rfl

theorem readMarkup_opened {markup after : List Char} {tag : Tag}
    (h : nextMarkup markup = .ok (.event (.opened tag), after)) (opened : List (List Char)) :
    readMarkup opened markup = .cons (.opened tag) (readFrom (tag.name :: opened) after) := by
  rw [readMarkup, h]

theorem readMarkup_close {markup after name : List Char}
    (h : nextMarkup markup = .ok (.close name, after)) (opened : List (List Char)) :
    readMarkup (name :: opened) markup = .cons (.closed name) (readFrom opened after) := by
  rw [readMarkup, h]
  dsimp only
  rw [if_pos rfl]

/-- Character data in front of a text is in front of what is read of the text. -/
theorem readFrom_append (opened : List (List Char)) {raw : List Char} (h : '<' ∉ raw)
    (s : List Char) : readFrom opened (raw ++ s) = (readFrom opened s).prependText raw := by
  have hraw : ∀ c ∈ raw, (c != '<') = true := fun c hc => by
    simpa using ne_of_mem_of_not_mem hc h
  have hbracket : readBracket opened (raw ++ s) = readBracket opened s := by
    rw [readBracket, List.dropWhile_append_of_pos hraw, ← readBracket]
  rw [readFrom_eq, List.takeWhile_append_of_pos hraw, hbracket,
    ← Document.prependText_prependText, ← readFrom_eq]

/-! ## going through a document -/

section Fold

variable {σ : Type} {step : σ → Event → Option σ}

/-- Taking character data piece by piece, where the first piece is written in
spellings. -/
def TakesPieces (step : σ → Event → Option σ) : Prop :=
  (∀ x, step x (.text []) = some x) ∧
    ∀ x ss more, step x (.text (written ss ++ more)) =
      (step x (.text (written ss))).bind fun y => step y (.text more)

theorem foldlM_prependText (h : TakesPieces step) (ss : List Spelling) (d : Document) (x : σ) :
    (d.prependText (written ss)).events.foldlM step x =
      (step x (.text (written ss))).bind fun y => d.events.foldlM step y := by
  unfold Document.prependText
  split
  · next hempty => rw [List.isEmpty_iff.1 hempty, h.1, Option.bind_some]
  · split
    · next more others hd =>
      rw [List.foldlM_cons, h.2, hd]
      exact Option.bind_assoc _ _ _
    · rfl

/-- Going through events in front of a document and going through the events
before the document is the same. -/
theorem foldlM_precede (h : TakesPieces step) {events : List Event}
    (hevents : ∀ raw, .text raw ∈ events → ∃ ss, raw = written ss) (d : Document) (x : σ) :
    (d.precede events).events.foldlM step x =
      (events.foldlM step x).bind fun y => d.events.foldlM step y := by
  induction events generalizing x with
  | nil => rfl
  | cons event rest ih =>
    have hrest := ih fun raw hraw => hevents raw (List.mem_cons_of_mem event hraw)
    have hcons : (event :: rest).foldlM step x = (step x event).bind (rest.foldlM step ·) := rfl
    rw [Document.precede_cons, hcons, Option.bind_assoc]
    cases event with
    | text raw =>
      obtain ⟨ss, rfl⟩ := hevents raw List.mem_cons_self
      rw [Document.prepend, foldlM_prependText h]
      exact congrArg _ (funext hrest)
    | _ => exact congrArg _ (funext hrest)

end Fold

section Ignored

variable {m : Type → Type} [Monad m] [LawfulMonad m] {σ : Type} {step : σ → Event → m σ}

/-- Character data in front of a document does not count where character data does not. -/
theorem foldlM_prependText_of_ignored {x : σ} (hx : ∀ raw, step x (.text raw) = pure x)
    (raw : List Char) (d : Document) :
    (d.prependText raw).events.foldlM step x = d.events.foldlM step x := by
  unfold Document.prependText
  split
  · rfl
  · split
    · next more others hd => rw [hd, List.foldlM_cons, List.foldlM_cons, hx, hx]
    · rw [Document.events_cons, List.foldlM_cons, hx, pure_bind]

/-- A byte order mark does not count where character data does not. -/
theorem foldlM_ofText {x : σ} (hx : ∀ raw, step x (.text raw) = pure x) (s : List Char) :
    (Document.ofText s).events.foldlM step x = (readFrom [] s).events.foldlM step x := by
  unfold Document.ofText
  split
  · next rest =>
    have hread := readFrom_append [] (show '<' ∉ ['\uFEFF'] by decide) rest
    rw [← List.singleton_append, hread, foldlM_prependText_of_ignored hx]
  · rfl

end Ignored

theorem fault_ofText (s : List Char) : (Document.ofText s).fault = (readFrom [] s).fault := by
  unfold Document.ofText
  split
  · next rest =>
    have hread := readFrom_append [] (show '<' ∉ ['\uFEFF'] by decide) rest
    rw [← List.singleton_append, hread, Document.fault_prependText]
  · rfl

end ResourceAudit.Xml
