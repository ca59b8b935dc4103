import ResourceAudit.Proofs.Xml.Document
import ResourceAudit.Proofs.Xml.Markup

/-!
# ResourceAudit.Proofs.Xml.Tag

Tags as markup.  A `RawTag` is a name with any text behind it in which every
mark of quotation is closed and no bracket ends the tag too early, whether
attributes can be read in that text or not; every written tag is one
(`WrittenTag.raw`).  The reader takes a raw tag for what it is, with content
behind it (`nextMarkup_opened`) or without (`nextMarkup_empty`), and the closing
tag for the name (`Name.nextMarkup_closing`).
-/

namespace ResourceAudit.Xml

/-! ## raw tags -/

/-- The tag of an element, up to what ends it. -/
structure RawTag where
  name : Name
  /-- What stands behind the name. -/
  rest : List Char
  isMarkupSpace_of_mem_head? : ∀ c ∈ rest.head?, isMarkupSpace c = true
  closed : Closed rest
  /-- A slash would be that of an element without content. -/
  getLast?_rest : rest.getLast? ≠ some '/'
  deriving DecidableEq

namespace RawTag

/-- The text of a tag. -/
def content (t : RawTag) : List Char := t.name.chars ++ t.rest

def tag (t : RawTag) : Tag := ⟨t.content⟩

@[simp] theorem name_tag (t : RawTag) : t.tag.name = t.name.chars :=
  t.name.takeWhile_append t.isMarkupSpace_of_mem_head?

theorem closed_content (t : RawTag) : Closed t.content := t.name.closed.append t.closed

theorem getLast?_content (t : RawTag) : t.content.getLast? ≠ some '/' := by
  intro h
  rw [content, List.getLast?_append, Option.or_eq_some_iff] at h
  rcases h with h | ⟨-, h⟩
  · exact t.getLast?_rest h
  · exact ne_of_isNameChar (t.name.isNameChar_of_mem _ (List.mem_of_getLast? h)) (by decide) rfl

end RawTag

/-! ## written tags -/

/-- An attribute ends with its mark of quotation. -/
theorem WrittenAttribute.getLast?_text (a : WrittenAttribute) :
    a.text.getLast? = some a.quote := by
  rw [text, quoted, ← List.append_assoc, List.getLast?_concat]

/-- The last character of texts in a row is the last character of one of them. -/
theorem exists_getLast?_flatMap {as : List WrittenAttribute} {c : Char}
    (h : (as.flatMap WrittenAttribute.text).getLast? = some c) :
    ∃ a : WrittenAttribute, a.text.getLast? = some c := by
  induction as with
  | nil => simp at h
  | cons a rest ih =>
    rw [List.flatMap_cons, List.getLast?_append, Option.or_eq_some_iff] at h
    rcases h with h | ⟨-, h⟩
    · exact ih h
    · exact ⟨a, h⟩

namespace WrittenTag

/-- Attributes end in a mark of quotation or in white space. -/
theorem getLast?_attributeText (t : WrittenTag) : t.attributeText.getLast? ≠ some '/' := by
  intro h
  rw [attributeText, List.getLast?_append, Option.or_eq_some_iff] at h
  rcases h with h | ⟨-, h⟩
  · exact ne_of_isMarkupSpace (t.after.isMarkupSpace_of_mem _ (List.mem_of_getLast? h)) (by decide)
      rfl
  · obtain ⟨a, ha⟩ := exists_getLast?_flatMap h
    rw [a.getLast?_text, Option.some.injEq] at ha
    rcases a.quote_eq with hq | hq <;> simp [hq] at ha

/-- A written tag as a raw one. -/
def raw (t : WrittenTag) : RawTag :=
  ⟨t.name, t.attributeText, t.isMarkupSpace_of_mem_head?, t.closed_attributeText,
    t.getLast?_attributeText⟩

end WrittenTag

/-! ## reading tags -/

/-- What begins with neither a mark of exclamation, nor one of a question, nor a slash is the
tag of an element. -/
theorem nextMarkup_element {c : Char} (hc : c ∉ "!?/".toList) (s : List Char) :
    nextMarkup (c :: s) =
      match cutTag none (c :: s) with
      | some (content, after) => .ok (.event (openingEvent content), after)
      | none => .error .unclosedTag := by
  have hmark : c ≠ '!' ∧ c ≠ '?' ∧ c ≠ '/' := by simpa using hc
  unfold nextMarkup
  split
  all_goals first | rfl | simp_all

namespace RawTag

/-- What begins with a name and is closed is the tag of an element. -/
theorem nextMarkup_content (t : RawTag) {last : List Char} (h : Closed last) (rest : List Char) :
    nextMarkup (t.content ++ last ++ '>' :: rest) =
      .ok (.event (openingEvent (t.content ++ last)), rest) := by
  obtain ⟨c, cs, hcs, hc, -⟩ := t.name.exists_cons
  have hcons : t.content ++ last = c :: (cs ++ t.rest ++ last) := by
    rw [content, hcs, List.cons_append, List.cons_append]
  have hne : c ≠ '!' ∧ c ≠ '?' ∧ c ≠ '/' :=
    ⟨ne_of_isNameChar hc (by decide), ne_of_isNameChar hc (by decide),
      ne_of_isNameChar hc (by decide)⟩
  have hmark : c ∉ "!?/".toList := by simpa using hne
  have htag := cutTag_of_closed (t.closed_content.append h) rest
  rw [hcons, List.cons_append] at htag ⊢
  rw [nextMarkup_element hmark, htag]

theorem nextMarkup_opened (t : RawTag) (rest : List Char) :
    nextMarkup (t.content ++ ['>'] ++ rest) = .ok (.event (.opened t.tag), rest) := by
  have hevent : openingEvent t.content = .opened t.tag := by
    unfold openingEvent
    split
    · next h => exact absurd h t.getLast?_content
    · rfl
  have h := t.nextMarkup_content closed_nil rest
  rwa [List.append_nil, hevent, ← List.singleton_append (l := rest), ← List.append_assoc] at h

theorem nextMarkup_empty (t : RawTag) (rest : List Char) :
    nextMarkup (t.content ++ "/>".toList ++ rest) = .ok (.event (.empty t.tag), rest) := by
  have hevent : openingEvent (t.content ++ ['/']) = .empty t.tag := by simp [openingEvent, tag]
  have h := t.nextMarkup_content (closed_of_plain (s := ['/']) (by simp)) rest
  rw [hevent] at h
  simpa using h

end RawTag

theorem nextMarkup_opened (t : WrittenTag) (rest : List Char) :
    nextMarkup (t.content ++ ['>'] ++ rest) = .ok (.event (.opened t.tag), rest) :=
  t.raw.nextMarkup_opened rest

theorem nextMarkup_empty (t : WrittenTag) (rest : List Char) :
    nextMarkup (t.content ++ "/>".toList ++ rest) = .ok (.event (.empty t.tag), rest) :=
  t.raw.nextMarkup_empty rest

/-! ## reading closing tags -/

/-- A closing tag behind its opening bracket. -/
def Name.closing (n : Name) (gap : Gap) : List Char := '/' :: n.chars ++ gap.chars ++ ['>']

theorem Name.nextMarkup_closing (n : Name) (gap : Gap) (rest : List Char) :
    nextMarkup (n.closing gap ++ rest) = .ok (.close n.chars, rest) := by
  have hname : closingName (n.chars ++ gap.chars) = n.chars := by
    obtain ⟨c, cs, hcs, hc, -⟩ := n.exists_cons
    have hall : ¬ (n.chars ++ gap.chars).all isMarkupSpace = true := by
      simp [hcs, isMarkupSpace_of_isNameChar hc]
    have hgap : ∀ d ∈ gap.chars.reverse, isMarkupSpace d = true := fun d hd =>
      gap.isMarkupSpace_of_mem d (List.mem_reverse.1 hd)
    have hlast : n.chars.reverse.dropWhile isMarkupSpace = n.chars.reverse := by
      refine List.dropWhile_eq_self_iff.2 fun hlen => ?_
      have hmem := n.isNameChar_of_mem _ (List.mem_reverse.1 (List.getElem_mem hlen))
      exact Bool.eq_false_iff.1 (isMarkupSpace_of_isNameChar hmem)
    rw [closingName, if_neg hall, List.reverse_append, List.dropWhile_append_of_pos hgap, hlast,
      List.reverse_reverse]
  have htag := cutTag_of_closed (n.closed.append gap.closed) rest
  rw [closing, List.append_assoc, List.singleton_append, List.cons_append, List.cons_append,
    nextMarkup]
  · rw [htag]
    dsimp only
    rw [hname]

/-- A closing tag behind its opening bracket. -/
def WrittenTag.closing (t : WrittenTag) (gap : Gap) : List Char :=
  '/' :: t.name.chars ++ gap.chars ++ ['>']

theorem nextMarkup_closing (t : WrittenTag) (gap : Gap) (rest : List Char) :
    nextMarkup (t.closing gap ++ rest) = .ok (.close t.name.chars, rest) :=
  t.name.nextMarkup_closing gap rest

end ResourceAudit.Xml
