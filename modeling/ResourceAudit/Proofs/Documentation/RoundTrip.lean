import ResourceAudit.Proofs.Documentation.Outdent
import ResourceAudit.Proofs.Resource.Meaning
import ResourceAudit.Proofs.Xml.Escape

/-!
# ResourceAudit.Proofs.Documentation.RoundTrip

The documentation of a member is read back as it was written.  `Summary` is a
summary as documentation lines: texts between white space, each on one line,
between tags on lines of their own or on the same line.  Writing moves the lines
to the left and puts them into a `member` element; what comes out is the text of
a forest (`exists_source_eq_markupOf`), and its entry has the documentation ID
for a name and the texts for a value (`entryOfMarkup_markup`).
-/

namespace ResourceAudit.Documentation

open ResourceAudit.Text ResourceAudit.Xml

/-! ## documentation lines -/

/-- White space within a line. -/
structure Padding where
  chars : List Char
  isBlankText_chars : isBlankText chars = true
  lineFeed_not_mem : '\n' ∉ chars
  deriving DecidableEq

/-- The white space around what stands on a line. -/
structure Margins where
  before : Padding
  after : Padding
  deriving DecidableEq

def Margins.around (m : Margins) (s : List Char) : List Char := m.before.chars ++ s ++ m.after.chars

/-- A text without line feeds, between white space. -/
structure TextLine where
  margins : Margins
  text : List Char
  lineFeed_not_mem : '\n' ∉ text
  deriving DecidableEq

/-- A summary as documentation lines. -/
inductive Summary where
  /-- The tags stand on lines of their own. -/
  | apart (opening : Margins) (texts : List TextLine) (closing : Margins)
  /-- The tags and one text stand on one line, with white space around the tags
  and the text. -/
  | together (margins : Margins) (text : TextLine)
  deriving DecidableEq

/-- A text with its white space, and its markup escaped. -/
def TextLine.escaped (l : TextLine) : List Char := l.margins.around (escape l.text)

def Summary.lines : Summary → List (List Char)
  | .apart opening texts closing =>
    opening.around "<summary>".toList ::
      (texts.map (·.escaped) ++ [closing.around "</summary>".toList])
  | .together margins text =>
    [margins.around ("<summary>".toList ++ text.escaped ++ "</summary>".toList)]

/-- What the lines of a summary say. -/
def Summary.texts : Summary → List (List Char)
  | .apart _ texts _ => texts.map (·.text)
  | .together _ text => [text.text]

/-- The texts of a summary that are not blank, trimmed and in one line. -/
def Summary.value (s : Summary) : List Char :=
  join [' '] ((s.texts.map trim).filter (!·.isEmpty))

/-! ## lines moved to the left -/

/-- A line without line feeds that is moved to the left is its trimmed text
between white space. -/
theorem exists_outdent {n : Nat} {line : List Char}
    (h : isBlankText line = false → n ≤ indentation line) (hline : '\n' ∉ line) :
    ∃ m : Margins, outdent n line = m.around (trim line) := by
  obtain ⟨a, b, ha, hb, hab⟩ := exists_trim (outdent n line)
  have hfeed : '\n' ∉ a ++ trim (outdent n line) ++ b := fun hmem =>
    hline ((outdent_isInfix n line).subset (hab ▸ hmem))
  simp only [List.mem_append, not_or] at hfeed
  refine ⟨⟨⟨a, ha, hfeed.1.1⟩, ⟨b, hb, hfeed.2⟩⟩, ?_⟩
  rw [trim_outdent h] at hab
  exact hab

theorem Margins.trim_around (m : Margins) (s : List Char) : trim (m.around s) = trim s :=
  trim_surround m.before.isBlankText_chars m.after.isBlankText_chars s

theorem TextLine.trim_escaped (l : TextLine) : trim l.escaped = escape (trim l.text) := by
  rw [escaped, Margins.trim_around, trim_escape]

theorem Margins.lineFeed_not_mem_around (m : Margins) {s : List Char} (h : '\n' ∉ s) :
    '\n' ∉ m.around s := by
  simp [Margins.around, h, m.before.lineFeed_not_mem, m.after.lineFeed_not_mem]

theorem TextLine.lineFeed_not_mem_escaped (l : TextLine) : '\n' ∉ l.escaped :=
  l.margins.lineFeed_not_mem_around fun h => l.lineFeed_not_mem (lineFeed_mem_escape h)

theorem Margins.escape_around (m : Margins) (s : List Char) :
    escape (m.around s) = m.around (escape s) := by
  rw [Margins.around, escape_append, escape_append,
    escape_of_isBlankText m.before.isBlankText_chars,
    escape_of_isBlankText m.after.isBlankText_chars, ← Margins.around]

/-! ## documentation as a forest -/

/-- The attribute that carries a documentation ID. -/
def idAttribute (id : List Char) : WrittenAttribute where
  before := ⟨[' '], List.all_eq_true.1 rfl⟩
  before_ne_nil := by decide
  key := ⟨"name".toList, by decide, List.all_eq_true.1 rfl⟩
  beforeEquals := .none
  afterEquals := .none
  quote := '"'
  quote_eq := .inl rfl
  value := spell id
  quote_not_mem := by
    rw [written_spell]
    exact quote_not_mem_escape id

/-- The tag of a member. -/
def memberTag (id : List Char) : WrittenTag :=
  ⟨⟨"member".toList, by decide, List.all_eq_true.1 rfl⟩, [idAttribute id], .none⟩

def summaryTag : WrittenTag := ⟨⟨"summary".toList, by decide, List.all_eq_true.1 rfl⟩, [], .none⟩

/-- A member with a summary, and the character data around and in the summary. -/
def documentForest (id lead body tail : List Char) : Forest :=
  .element (memberTag id)
    (.text (spell lead)
      (.element summaryTag (.text (spell body) .nil) .none (.text (spell tail) .nil)))
    .none (.text (spell ['\n']) .nil)

theorem content_memberTag (id : List Char) :
    (memberTag id).content = "member name=\"".toList ++ written (spell id) ++ ['"'] := by
  have htext : (memberTag id).content =
      "member name=\"".toList ++ written (spell id) ++ ['"'] ++ [] ++ [] := rfl
  rw [htext, List.append_nil, List.append_nil]

theorem source_documentForest (id lead body tail : List Char) :
    (documentForest id lead body tail).source =
      "<member name=\"".toList ++ escape id ++ "\">".toList ++ escape lead ++
        "<summary>".toList ++ escape body ++ "</summary>".toList ++ escape tail ++
        "</member>\n".toList := by
  have hsource : (documentForest id lead body tail).source =
      '<' :: (memberTag id).content ++ '>' :: (written (spell lead) ++
        ("<summary".toList ++ '>' :: (written (spell body) ++ []) ++ "</".toList ++
          "summary".toList ++ [] ++ '>' :: (written (spell tail) ++ []))) ++
        "</".toList ++ "member".toList ++ [] ++ ">\n".toList := rfl
  rw [hsource, content_memberTag]
  simp only [written_spell, List.append_nil, List.cons_append, List.append_assoc]
  rfl

/-- The name of the member is its ID, and the text of its summary is all that
counts besides. -/
theorem entry_documentForest (id lead body tail : List Char) :
    (documentForest id lead body tail).entry =
      ⟨.ofList (trim id), .ofList (joinLines body)⟩ := by
  have hvalue : memberOf? (memberTag id) = some (meant (spell id)) := rfl
  have hwithout : ((documentForest id lead body tail).withoutFirst "summary".toList).tags =
      [memberTag id] := rfl
  have hfirst : (documentForest id lead body tail).first? "summary".toList =
      some (.text (spell body) .nil) := rfl
  have hname : (documentForest id lead body tail).memberName = id := by
    rw [Forest.memberName, hwithout, memberName?_cons, hvalue, Option.some_or, Option.getD_some,
      meant_spell]
  have htext : (documentForest id lead body tail).summaryText = body := by
    rw [Forest.summaryText, Forest.summary?, hfirst, Option.map_some, Option.getD_some,
      Forest.innerText, Forest.innerText, meant_spell, List.append_nil]
  rw [Forest.entry, hname, htext]

/-! ## writing -/

/-- A documentation line below the tag of its member. -/
def bodyLine (n : Nat) (line : List Char) : List Char := "    ".toList ++ outdent n line ++ ['\n']

/-- The markup of a member whose lines are moved to the left by so many bytes. -/
def markupBy (n : Nat) (id : List Char) (lines : List (List Char)) : List Char :=
  '<' :: "member name=\"".toList ++ escape id ++ "\">\n".toList ++ lines.flatMap (bodyLine n) ++
    "</member>\n".toList

theorem markupOf_eq (id : List Char) (lines : List (List Char)) :
    markupOf id lines = markupBy (sharedIndentation lines) id lines := rfl

theorem joinLines_eq (s : List Char) : joinLines s = join [' '] (trimmedLines s) := rfl

/-- Lines of text come out as a text that has the same lines up to white
space. -/
theorem exists_body {n : Nat} (ls : List TextLine)
    (h : ∀ l ∈ ls, isBlankText l.escaped = false → n ≤ indentation l.escaped) :
    ∃ body, (ls.map (·.escaped)).flatMap (bodyLine n) = escape body ∧
      ∀ t, trimmedLines (body ++ t) =
        ((ls.map (·.text)).map trim).filter (!·.isEmpty) ++ trimmedLines t := by
  induction ls with
  | nil => exact ⟨[], rfl, fun t => rfl⟩
  | cons l rest ih =>
    rw [List.forall_mem_cons] at h
    obtain ⟨body, hbody, hlines⟩ := ih h.2
    obtain ⟨m, hm⟩ := exists_outdent h.1 l.lineFeed_not_mem_escaped
    have hindent : isBlankText "    ".toList = true := by decide
    have hfeed : '\n' ∉ "    ".toList ++ m.around (trim l.text) := by
      rw [List.mem_append, not_or]
      exact ⟨by decide, m.lineFeed_not_mem_around fun hmem =>
        l.lineFeed_not_mem (mem_of_mem_trim hmem)⟩
    have htrim : trim ("    ".toList ++ m.around (trim l.text)) = trim l.text := by
      rw [← List.append_nil ("    ".toList ++ _), trim_surround hindent rfl, m.trim_around,
        trim_trim]
    refine ⟨"    ".toList ++ m.around (trim l.text) ++ '\n' :: body, ?_, fun t => ?_⟩
    · have hline : escape ('\n' :: body) = '\n' :: escape body := rfl
      rw [List.map_cons, List.flatMap_cons, hbody, bodyLine, hm, l.trim_escaped, escape_append,
        escape_append, escape_of_isBlankText hindent, m.escape_around, hline, List.append_assoc]
      rfl
    · rw [List.append_assoc, List.cons_append, trimmedLines_append hfeed, htrim, hlines,
        List.map_cons, List.map_cons, ← List.append_assoc, ← List.filter_append]
      rfl

/-- A line with a trimmed text that is moved to the left, below the tag of its
member. -/
theorem exists_bodyLine {n : Nat} {m : Margins} {s : List Char} (htrim : trim s = s)
    (h : isBlankText (m.around s) = false → n ≤ indentation (m.around s)) (hs : '\n' ∉ s) :
    ∃ m' : Margins, bodyLine n (m.around s) = "    ".toList ++ m'.around s ++ ['\n'] := by
  obtain ⟨m', hm'⟩ := exists_outdent h (m.lineFeed_not_mem_around hs)
  refine ⟨m', ?_⟩
  rw [bodyLine, hm', m.trim_around, htrim]

/-- White space on a line is no line. -/
theorem Padding.trimmedLines_append_chars {s : List Char} (hblank : isBlankText s = true)
    (hs : '\n' ∉ s) (p : Padding) : trimmedLines (s ++ p.chars) = [] := by
  have hfeed : '\n' ∉ s ++ p.chars := by simp [hs, p.lineFeed_not_mem]
  have hall : isBlankText (s ++ p.chars) = true := by simp [hblank, p.isBlankText_chars]
  rw [trimmedLines_of_not_mem hfeed, trim_eq_nil hall]
  rfl

/-- What stands in front of the tag of a summary. -/
theorem Padding.escape_lead (p : Padding) :
    escape ('\n' :: "    ".toList ++ p.chars) = '\n' :: "    ".toList ++ p.chars := by
  have hblank : isBlankText ('\n' :: "    ".toList) = true := by decide
  exact escape_of_isBlankText (by rw [isBlankText_append, hblank, p.isBlankText_chars]; rfl)

/-- What stands behind the closing tag of a summary. -/
theorem Padding.escape_tail (p : Padding) : escape (p.chars ++ ['\n']) = p.chars ++ ['\n'] :=
  escape_of_isBlankText (by rw [isBlankText_append, p.isBlankText_chars]; rfl)

/-- A summary with its tags on lines of their own. -/
theorem exists_source_apart {n : Nat} (id : List Char) (opening : Margins) (texts : List TextLine)
    (closing : Margins) (h : ∀ line ∈ (Summary.apart opening texts closing).lines,
      isBlankText line = false → n ≤ indentation line) :
    ∃ lead body tail,
      markupBy n id (Summary.apart opening texts closing).lines =
        (documentForest id lead body tail).source ∧
      joinLines body = (Summary.apart opening texts closing).value := by
  rw [Summary.lines, List.forall_mem_cons, List.forall_mem_append, List.forall_mem_singleton] at h
  obtain ⟨hopening, htexts, hclosing⟩ := h
  obtain ⟨before, hbefore⟩ := exists_bodyLine (by decide) hopening (by decide)
  obtain ⟨after, hafter⟩ := exists_bodyLine (by decide) hclosing (by decide)
  obtain ⟨body, hbody, hlines⟩ := exists_body texts fun l hl =>
    htexts _ (List.mem_map_of_mem hl)
  refine ⟨'\n' :: "    ".toList ++ before.before.chars,
    before.after.chars ++ '\n' :: (body ++ ("    ".toList ++ after.before.chars)),
    after.after.chars ++ ['\n'], ?_, ?_⟩
  · have hinside : escape (before.after.chars ++ '\n' ::
        (body ++ ("    ".toList ++ after.before.chars))) =
        before.after.chars ++ '\n' :: (escape body ++ ("    ".toList ++ after.before.chars)) := by
      have hcons : ∀ t, escape ('\n' :: t) = '\n' :: escape t := fun t => rfl
      have hindent : isBlankText "    ".toList = true := by decide
      rw [escape_append, hcons, escape_append, escape_append,
        escape_of_isBlankText before.after.isBlankText_chars, escape_of_isBlankText hindent,
        escape_of_isBlankText after.before.isBlankText_chars]
    rw [source_documentForest, before.before.escape_lead, hinside, after.after.escape_tail,
      markupBy, Summary.lines, List.flatMap_cons, List.flatMap_append, List.flatMap_singleton,
      hbefore, hbody, hafter, Margins.around, Margins.around]
    simp only [List.append_assoc, List.cons_append]
    rfl
  · have hblank : trimmedLines ("    ".toList ++ after.before.chars) = [] :=
      Padding.trimmedLines_append_chars (by decide) (by decide) after.before
    rw [joinLines_eq, trimmedLines_append before.after.lineFeed_not_mem,
      trim_eq_nil before.after.isBlankText_chars, hlines, hblank, List.append_nil]
    rfl

/-- A summary on one line begins and ends with a bracket, so it is trimmed. -/
theorem trim_summaryElement (s : List Char) :
    trim ("<summary>".toList ++ s ++ "</summary>".toList) =
      "<summary>".toList ++ s ++ "</summary>".toList := by
  have hends : "<summary>".toList ++ s ++ "</summary>".toList =
      '<' :: ("summary>".toList ++ s ++ "</summary".toList) ++ ['>'] := by
    simp only [List.append_assoc, List.cons_append]
    rfl
  rw [hends]
  exact trim_eq_self (by decide) (by decide) _

/-- A summary on one line. -/
theorem exists_source_together {n : Nat} (id : List Char) (margins : Margins) (text : TextLine)
    (h : ∀ line ∈ (Summary.together margins text).lines,
      isBlankText line = false → n ≤ indentation line) :
    ∃ lead body tail,
      markupBy n id (Summary.together margins text).lines =
        (documentForest id lead body tail).source ∧
      joinLines body = (Summary.together margins text).value := by
  rw [Summary.lines, List.forall_mem_singleton] at h
  have hfeed : '\n' ∉ "<summary>".toList ++ text.escaped ++ "</summary>".toList := by
    rw [List.mem_append, List.mem_append, not_or, not_or]
    exact ⟨⟨by decide, text.lineFeed_not_mem_escaped⟩, by decide⟩
  obtain ⟨m, hm⟩ := exists_bodyLine (trim_summaryElement text.escaped) h hfeed
  refine ⟨'\n' :: "    ".toList ++ m.before.chars, text.margins.around text.text,
    m.after.chars ++ ['\n'], ?_, ?_⟩
  · rw [source_documentForest, m.before.escape_lead, Margins.escape_around, m.after.escape_tail,
      markupBy, Summary.lines, List.flatMap_singleton, hm, Margins.around, TextLine.escaped]
    simp only [List.append_assoc, List.cons_append]
    rfl
  · rw [joinLines_eq, trimmedLines_of_not_mem (text.margins.lineFeed_not_mem_around
      text.lineFeed_not_mem), Margins.trim_around]
    rfl

/-- A summary is written as the text of a forest that says what its lines
say. -/
theorem exists_source_eq_markupOf (id : List Char) (s : Summary) :
    ∃ lead body tail, markupOf id s.lines = (documentForest id lead body tail).source ∧
      joinLines body = s.value := by
  have h : ∀ line ∈ s.lines, isBlankText line = false → sharedIndentation s.lines ≤
      indentation line := fun line hline => sharedIndentation_le hline
  rw [markupOf_eq]
  cases s with
  | apart opening texts closing => exact exists_source_apart id opening texts closing h
  | together margins text => exact exists_source_together id margins text h

/-! ## reading back -/

/-- Texts that are not blank make a blank text together only if there are
none. -/
theorem isBlankText_join {ts : List (List Char)} (h : ∀ t ∈ ts, isBlankText t = false) :
    isBlankText (join [' '] ts) = true ↔ join [' '] ts = [] := by
  constructor
  · intro hblank
    cases ts with
    | nil => rfl
    | cons t rest =>
      have ht := h t List.mem_cons_self
      cases rest with
      | nil =>
        rw [join, ht] at hblank
        exact absurd hblank Bool.false_ne_true
      | cons u us =>
        rw [join, isBlankText_append, isBlankText_append, ht] at hblank
        · exact absurd hblank Bool.false_ne_true
        · simp
  · intro hnil
    rw [hnil]
    rfl

theorem Summary.isBlankText_value (s : Summary) :
    isBlankText s.value = true ↔ s.value = [] := by
  refine isBlankText_join fun t ht => ?_
  obtain ⟨hmem, hne⟩ := List.mem_filter.1 ht
  obtain ⟨u, -, rfl⟩ := List.mem_map.1 hmem
  rw [isBlankText_trim]
  refine Bool.eq_false_iff.2 fun hu => ?_
  rw [trim_eq_nil hu] at hne
  exact Bool.noConfusion hne

/-- Documentation is read back as it was written, for every ID, every text and
all white space around the lines: the name is the ID and the value what the
lines say, unless one of them is empty. -/
theorem entryOfMarkup_markup (id : String) (s : Summary) :
    entryOfMarkup (markup id (s.lines.map String.ofList)) =
      if trim id.toList = [] ∨ s.value = [] then none
      else some ⟨.ofList (trim id.toList), .ofList s.value⟩ := by
  obtain ⟨lead, body, tail, hsource, hvalue⟩ := exists_source_eq_markupOf id.toList s
  have hlines : (s.lines.map String.ofList).isEmpty = false := by
    cases s <;> rfl
  have hmap : (s.lines.map String.ofList).map String.toList = s.lines := by
    simp [Function.comp_def]
  have hblank : Entry.isBlank ⟨.ofList (trim id.toList), .ofList s.value⟩ = true ↔
      trim id.toList = [] ∨ s.value = [] := by
    rw [Entry.isBlank, Bool.or_eq_true, String.toList_ofList, String.toList_ofList,
      isBlankText_trim, trim_eq_nil_iff, s.isBlankText_value]
  rw [markup, hlines, if_neg Bool.false_ne_true, hmap, hsource, entryOfMarkup_source,
    entry_documentForest, hvalue]
  exact if_congr hblank rfl rfl

end ResourceAudit.Documentation
