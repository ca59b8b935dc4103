import ResourceAudit.Proofs.Text.Cut
import ResourceAudit.Proofs.Xml.Spelling
import ResourceAudit.Xml.Document
import Mathlib.Data.List.TakeWhile

/-!
# ResourceAudit.Proofs.Xml.Markup

Tags as they are written, and how they are read back.  A `WrittenTag` is a name
with attributes, each with the white space, the quotation mark and the
spellings of one way to write it; a tag that is not well-formed cannot be
built.  Main statements: the reader ends a tag where it was ended
(`cutTag_of_closed`), and finds the first attribute with a key
(`attribute?_tag`).
-/

namespace ResourceAudit.Xml

open ResourceAudit.Text

/-! ## names and gaps -/

/-- The characters of names: all but white space and those that markup is made
of. -/
def isNameChar (c : Char) : Bool := !isMarkupSpace c && !"<>/=\"'&!?".toList.contains c

/-- The name of an element or of an attribute. -/
structure Name where
  chars : List Char
  ne_nil : chars ≠ []
  isNameChar_of_mem : ∀ c ∈ chars, isNameChar c = true
  deriving DecidableEq

/-- White space in markup. -/
structure Gap where
  chars : List Char
  isMarkupSpace_of_mem : ∀ c ∈ chars, isMarkupSpace c = true
  deriving DecidableEq

/-- No white space. -/
def Gap.none : Gap := ⟨[], List.forall_mem_nil _⟩

/-- A text that can be told to be a name. -/
def Name.ofList (s : List Char) (h : (!s.isEmpty && s.all isNameChar) = true) : Name where
  chars := s
  ne_nil := by simpa using (Bool.and_eq_true_iff.1 h).1
  isNameChar_of_mem := List.all_eq_true.1 (Bool.and_eq_true_iff.1 h).2

/-- The name that a text is; a text that is no name is taken for `_`. -/
def Name.ofText (s : String) : Name :=
  if h : (!s.toList.isEmpty && s.toList.all isNameChar) = true then .ofList s.toList h
  else .ofList ['_'] rfl

/-- A text that can be told to be white space. -/
def Gap.ofList (s : List Char) (h : s.all isMarkupSpace = true) : Gap := ⟨s, List.all_eq_true.1 h⟩

theorem isMarkupSpace_of_isNameChar {c : Char} (h : isNameChar c = true) :
    isMarkupSpace c = false := by
  simp only [isNameChar, Bool.and_eq_true, Bool.not_eq_true'] at h
  exact h.1

theorem ne_of_isNameChar {c d : Char} (h : isNameChar c = true) (hd : isNameChar d = false) :
    c ≠ d := by
  rintro rfl
  exact Bool.noConfusion (h.symm.trans hd)

theorem ne_of_isMarkupSpace {c d : Char} (h : isMarkupSpace c = true)
    (hd : isMarkupSpace d = false) : c ≠ d := by
  rintro rfl
  exact Bool.noConfusion (h.symm.trans hd)

/-! ## written tags -/

/-- An attribute as it is written. -/
structure WrittenAttribute where
  /-- The white space in front of it. -/
  before : Gap
  before_ne_nil : before.chars ≠ []
  key : Name
  beforeEquals : Gap
  afterEquals : Gap
  quote : Char
  quote_eq : quote = '"' ∨ quote = '\''
  value : List Spelling
  quote_not_mem : quote ∉ written value
  deriving DecidableEq

namespace WrittenAttribute

/-- The value with its marks of quotation. -/
def quoted (a : WrittenAttribute) : List Char := a.quote :: written a.value ++ [a.quote]

/-- The text of an attribute. -/
def text (a : WrittenAttribute) : List Char :=
  a.before.chars ++ a.key.chars ++ a.beforeEquals.chars ++ '=' :: a.afterEquals.chars ++ a.quoted

/-- The attribute as it is found, with the value as it is written. -/
def toAttribute (a : WrittenAttribute) : Attribute := ⟨a.key.chars, written a.value⟩

@[simp] theorem key_toAttribute (a : WrittenAttribute) : a.toAttribute.key = a.key.chars := rfl

@[simp] theorem rawValue_toAttribute (a : WrittenAttribute) :
    a.toAttribute.rawValue = written a.value := rfl

end WrittenAttribute

/-- The tag of an element as it is written, up to what ends it. -/
structure WrittenTag where
  name : Name
  attributes : List WrittenAttribute
  /-- The white space behind the name and the attributes. -/
  after : Gap
  deriving DecidableEq

namespace WrittenTag

/-- What stands behind the name. -/
def attributeText (t : WrittenTag) : List Char :=
  t.attributes.flatMap WrittenAttribute.text ++ t.after.chars

/-- The text of a tag. -/
def content (t : WrittenTag) : List Char := t.name.chars ++ t.attributeText

def tag (t : WrittenTag) : Tag := ⟨t.content⟩

/-- The first attribute with a key. -/
def find? (t : WrittenTag) (key : String) : Option WrittenAttribute :=
  t.attributes.find? (·.key.chars = key.toList)

/-- The characters that the value of an attribute means. -/
def value? (t : WrittenTag) (key : String) : Option (List Char) :=
  (t.find? key).map fun a => meant a.value

end WrittenTag

/-! ## where tags end -/

/-- Being text in a tag that leaves no mark of quotation open and does not end
the tag. -/
def Closed (s : List Char) : Prop :=
  ∀ t, cutTag none (s ++ t) = (cutTag none t).map fun (inside, after) => (s ++ inside, after)

theorem closed_nil : Closed [] := by
  intro t
  rw [List.nil_append]
  cases cutTag none t <;> rfl

theorem Closed.append {s t : List Char} (hs : Closed s) (ht : Closed t) : Closed (s ++ t) := by
  intro u
  rw [List.append_assoc, hs, ht]
  cases cutTag none u with
  | none => rfl
  | some p => simp

theorem closed_of_plain {s : List Char} (h : ∀ c ∈ s, c ≠ '>' ∧ c ≠ '"' ∧ c ≠ '\'') : Closed s := by
  induction s with
  | nil => exact closed_nil
  | cons c rest ih =>
    intro t
    obtain ⟨hgt, hquot, hapos⟩ := h c List.mem_cons_self
    have hrest := ih (fun d hd => h d (List.mem_cons_of_mem c hd)) t
    rw [List.cons_append, cutTag]
    dsimp only
    rw [if_neg hgt, if_neg (by simp [hquot, hapos]), hrest]
    cases cutTag none t <;> rfl

theorem Name.closed (n : Name) : Closed n.chars :=
  closed_of_plain fun c hc =>
    have h := n.isNameChar_of_mem c hc
    ⟨ne_of_isNameChar h (by decide), ne_of_isNameChar h (by decide), ne_of_isNameChar h (by decide)⟩

theorem Gap.closed (g : Gap) : Closed g.chars :=
  closed_of_plain fun c hc =>
    have h := g.isMarkupSpace_of_mem c hc
    ⟨ne_of_isMarkupSpace h (by decide), ne_of_isMarkupSpace h (by decide),
      ne_of_isMarkupSpace h (by decide)⟩

/-- Inside quotation marks only the mark that opened them counts. -/
theorem cutTag_some {q : Char} {s : List Char} (h : q ∉ s) (t : List Char) :
    cutTag (some q) (s ++ q :: t) =
      (cutTag none t).map fun (inside, after) => (s ++ q :: inside, after) := by
  induction s with
  | nil =>
    rw [List.nil_append, cutTag]
    dsimp only
    rw [if_pos rfl]
    cases cutTag none t <;> rfl
  | cons c rest ih =>
    simp only [List.mem_cons, not_or] at h
    rw [List.cons_append, cutTag]
    dsimp only
    rw [if_neg (Ne.symm h.1), ih h.2]
    cases cutTag none t <;> rfl

theorem WrittenAttribute.closed_quoted (a : WrittenAttribute) : Closed a.quoted := by
  intro t
  have hgt : a.quote ≠ '>' := by
    rcases a.quote_eq with h | h <;> rw [h] <;> decide
  rw [quoted, List.append_assoc, List.cons_append, cutTag]
  dsimp only
  rw [if_neg hgt, if_pos a.quote_eq, List.singleton_append, cutTag_some a.quote_not_mem]
  cases cutTag none t with
  | none => rfl
  | some p => simp [prepend]

theorem WrittenAttribute.closed (a : WrittenAttribute) : Closed a.text := by
  have hequals : Closed ['='] := closed_of_plain (by simp)
  have h := ((((a.before.closed.append a.key.closed).append a.beforeEquals.closed).append
    hequals).append a.afterEquals.closed).append a.closed_quoted
  simpa [text] using h

theorem WrittenTag.closed_attributeText (t : WrittenTag) : Closed t.attributeText := by
  have hattributes : Closed (t.attributes.flatMap WrittenAttribute.text) := by
    induction t.attributes with
    | nil => exact closed_nil
    | cons a rest ih => exact a.closed.append ih
  exact hattributes.append t.after.closed

/-- A tag ends at its closing bracket. -/
theorem cutTag_of_closed {s : List Char} (h : Closed s) (rest : List Char) :
    cutTag none (s ++ '>' :: rest) = some (s, rest) := by
  rw [h, cutTag]
  simp

/-! ## attributes -/

theorem Gap.dropWhile_append (g : Gap) {c : Char} (hc : isMarkupSpace c = false) (s : List Char) :
    (g.chars ++ c :: s).dropWhile isMarkupSpace = c :: s := by
  rw [List.dropWhile_append_of_pos g.isMarkupSpace_of_mem, List.dropWhile_cons_of_neg (by simp [hc])]

theorem Name.exists_cons (n : Name) : ∃ c rest, n.chars = c :: rest ∧ isNameChar c = true ∧
    ∀ d ∈ rest, isNameChar d = true := by
  obtain ⟨c, rest, h⟩ := List.exists_cons_of_ne_nil n.ne_nil
  have hall := n.isNameChar_of_mem
  rw [h, List.forall_mem_cons] at hall
  exact ⟨c, rest, h, hall⟩

/-- The key of an attribute ends at the white space or the sign behind it. -/
theorem takeWhile_key {key : List Char} (hkey : ∀ c ∈ key, isNameChar c = true) (g : Gap)
    (s : List Char) :
    (key ++ (g.chars ++ '=' :: s)).takeWhile (fun c => c != '=' && !isMarkupSpace c) = key := by
  have hall : ∀ c ∈ key, (c != '=' && !isMarkupSpace c) = true := fun c hc => by
    have hne : c ≠ '=' := ne_of_isNameChar (hkey c hc) (by decide)
    simp [hne, isMarkupSpace_of_isNameChar (hkey c hc)]
  have hgap := g.isMarkupSpace_of_mem
  rw [List.takeWhile_append_of_pos hall]
  cases hg : g.chars with
  | nil => simp
  | cons c rest =>
    rw [hg, List.forall_mem_cons] at hgap
    rw [List.cons_append, List.takeWhile_cons_of_neg (by simp [hgap.1]), List.append_nil]

/-- A written attribute is read as what it is. -/
theorem nextAttribute_text (size : Nat) (a : WrittenAttribute) (t : List Char) :
    nextAttribute size (a.text ++ t) = .ok (some (a.toAttribute, t)) := by
  obtain ⟨c, key, hkey, hc, hall⟩ := a.key.exists_cons
  have hquote : isMarkupSpace a.quote = false := by
    rcases a.quote_eq with h | h <;> rw [h] <;> decide
  have hmark : (a.quote == '"' || a.quote == '\'') = true := by
    rcases a.quote_eq with h | h <;> rw [h] <;> decide
  have htext : a.text ++ t = a.before.chars ++ c :: (key ++ (a.beforeEquals.chars ++ '=' ::
      (a.afterEquals.chars ++ a.quote :: (written a.value ++ a.quote :: t)))) := by
    simp [WrittenAttribute.text, WrittenAttribute.quoted, hkey]
  have hdrop : ∀ s, (key ++ s).drop key.length = s := fun s => List.drop_left
  rw [htext, nextAttribute]
  simp only [a.before.dropWhile_append (isMarkupSpace_of_isNameChar hc), takeWhile_key hall, hdrop,
    a.beforeEquals.dropWhile_append (c := '=') (by decide), a.afterEquals.dropWhile_append hquote,
    hmark, if_true, cutAt_singleton a.quote_not_mem, WrittenAttribute.toAttribute, hkey]

theorem nextAttribute_gap (size : Nat) (g : Gap) : nextAttribute size g.chars = .ok none := by
  have hnil : g.chars.dropWhile isMarkupSpace = [] :=
    List.dropWhile_eq_nil_iff.2 g.isMarkupSpace_of_mem
  rw [nextAttribute, hnil]

theorem findAttribute_text (size : Nat) (key : List Char) (as : List WrittenAttribute) (g : Gap) :
    findAttribute size key (as.flatMap WrittenAttribute.text ++ g.chars) =
      .ok ((as.find? (·.key.chars = key)).map WrittenAttribute.toAttribute) := by
  induction as with
  | nil =>
    rw [List.flatMap_nil, List.nil_append, findAttribute]
    split
    · next h => simp [nextAttribute_gap] at h
    · rfl
    · next h => simp [nextAttribute_gap] at h
  | cons a rest ih =>
    rw [List.flatMap_cons, List.append_assoc, findAttribute]
    split
    · next h => simp [nextAttribute_text] at h
    · next h => simp [nextAttribute_text] at h
    · next b after h =>
      rw [nextAttribute_text] at h
      simp only [Except.ok.injEq, Option.some.injEq, Prod.mk.injEq] at h
      obtain ⟨rfl, rfl⟩ := h
      rw [WrittenAttribute.key_toAttribute]
      by_cases hk : a.key.chars = key
      · rw [if_pos hk, List.find?_cons_of_pos (by simpa using hk), Option.map_some]
      · rw [if_neg hk, ih, List.find?_cons_of_neg (by simpa using hk)]

/-- A name ends at the white space behind it. -/
theorem Name.takeWhile_append (n : Name) {rest : List Char}
    (h : ∀ c ∈ rest.head?, isMarkupSpace c = true) :
    (n.chars ++ rest).takeWhile (!isMarkupSpace ·) = n.chars := by
  have hname : ∀ c ∈ n.chars, (!isMarkupSpace c) = true := fun c hc => by
    rw [isMarkupSpace_of_isNameChar (n.isNameChar_of_mem c hc), Bool.not_false]
  have hrest : rest.takeWhile (!isMarkupSpace ·) = [] := by
    cases rest with
    | nil => rfl
    | cons c cs => rw [List.takeWhile_cons_of_neg (by simp [h c rfl])]
  rw [List.takeWhile_append_of_pos hname, hrest, List.append_nil]

namespace WrittenTag

/-- Behind the name of an element there is nothing or white space. -/
theorem isMarkupSpace_of_mem_head? (t : WrittenTag) :
    ∀ c ∈ t.attributeText.head?, isMarkupSpace c = true := by
  intro c hc
  unfold attributeText at hc
  cases hattributes : t.attributes with
  | nil =>
    rw [hattributes, List.flatMap_nil, List.nil_append] at hc
    exact t.after.isMarkupSpace_of_mem c (List.mem_of_mem_head? hc)
  | cons a rest =>
    obtain ⟨d, gap, hgap⟩ := List.exists_cons_of_ne_nil a.before_ne_nil
    rw [hattributes] at hc
    obtain rfl : d = c := by simpa [WrittenAttribute.text, hgap] using hc
    exact a.before.isMarkupSpace_of_mem d (by simp [hgap])

@[simp] theorem name_tag (t : WrittenTag) : t.tag.name = t.name.chars :=
  t.name.takeWhile_append t.isMarkupSpace_of_mem_head?

/-- The attribute that is found is the first one with the key. -/
theorem attribute?_tag (t : WrittenTag) (key : String) :
    t.tag.attribute? key = .ok ((t.find? key).map WrittenAttribute.toAttribute) := by
  rw [Tag.attribute?, name_tag]
  have hdrop : t.tag.content.drop t.name.chars.length = t.attributeText := List.drop_left
  rw [hdrop, attributeText, findAttribute_text, find?]

end WrittenTag

end ResourceAudit.Xml
