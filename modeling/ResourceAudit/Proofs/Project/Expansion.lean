import Mathlib
import ResourceAudit.Project
import ResourceAudit.Proofs.Text.Cut

/-!
# ResourceAudit.Proofs.Project.Expansion

What expanding a text does to it.  A text is divided into references and single
characters, in one way only, if from left to right every reference counts that
begins at a character not taken yet (`IsDivision`); the expanded text is this
division with the value in place of each reference (`IsDivision.expandText_eq`).
The dollar of a reference is its only one, so references never overlap: each is
replaced whatever stands around it, and what no reference begins in stays as it is.
-/

namespace ResourceAudit

/-! ## references -/

/-- Being the name of a property as references have it. -/
def IsPropertyName (name : List Char) : Prop :=
  ∃ first others, name = first :: others ∧ isNameStart first = true ∧
    ∀ c ∈ others, isNameChar c = true

/-- A reference as it is written. -/
def referenceText (name : List Char) : List Char := '$' :: '(' :: (name ++ [')'])

def BeginsWithReference (s : List Char) : Prop :=
  ∃ name, IsPropertyName name ∧ referenceText name <+: s

theorem isNameChar_of_isNameStart {c : Char} (h : isNameStart c = true) : isNameChar c = true := by
  rw [isNameStart, Bool.or_eq_true] at h
  rw [isNameChar, Char.isAlphanum]
  rcases h with h | h <;> simp [h]

theorem IsPropertyName.isNameChar {name : List Char} (h : IsPropertyName name) :
    ∀ c ∈ name, isNameChar c = true := by
  obtain ⟨first, others, rfl, hfirst, hothers⟩ := h
  rw [List.forall_mem_cons]
  exact ⟨isNameChar_of_isNameStart hfirst, hothers⟩

/-- A reference has one dollar, in front. -/
theorem IsPropertyName.dollar_not_mem {name : List Char} (h : IsPropertyName name) :
    '$' ∉ '(' :: (name ++ [')']) := by
  have hname : '$' ∉ name := fun hmem => absurd (h.isNameChar _ hmem) (by decide)
  simp [hname]

theorem takeReference_eq_some_iff {s name after : List Char} :
    takeReference s = some (name, after) ↔
      IsPropertyName name ∧ s = referenceText name ++ after := by
  constructor
  · intro h
    unfold takeReference at h
    split at h
    · next first rest =>
      dsimp only at h
      split at h
      · next hfirst hdrop =>
        simp only [Option.some.injEq, Prod.mk.injEq] at h
        obtain ⟨rfl, rfl⟩ := h
        have hrest := List.prefix_iff_eq_append.1 (List.takeWhile_prefix isNameChar (l := rest))
        rw [hdrop] at hrest
        refine ⟨⟨first, _, rfl, hfirst, List.all_eq_true.1 List.all_takeWhile⟩, ?_⟩
        simp only [referenceText, List.cons_append, List.append_assoc, List.nil_append, hrest]
      · cases h
    · cases h
  · rintro ⟨⟨first, others, rfl, hfirst, hothers⟩, rfl⟩
    have htake : (others ++ ')' :: after).takeWhile isNameChar = others := by
      rw [List.takeWhile_append_of_pos hothers, List.takeWhile_cons_of_neg (by decide),
        List.append_nil]
    simp [takeReference, referenceText, htake, hfirst]

theorem takeReference_append {name : List Char} (h : IsPropertyName name) (s : List Char) :
    takeReference (referenceText name ++ s) = some (name, s) := takeReference_eq_some_iff.2 ⟨h, rfl⟩

theorem takeReference_eq_none_iff {s : List Char} :
    takeReference s = none ↔ ¬ BeginsWithReference s := by
  rw [← not_iff_not, not_not, ← ne_eq, Option.ne_none_iff_exists']
  constructor
  · rintro ⟨⟨name, after⟩, h⟩
    obtain ⟨hname, rfl⟩ := takeReference_eq_some_iff.1 h
    exact ⟨name, hname, List.prefix_append _ _⟩
  · rintro ⟨name, hname, after, rfl⟩
    exact ⟨(name, after), takeReference_append hname after⟩

/-- What stands in front of a dollar begins with a reference on its own or not at
all. -/
theorem BeginsWithReference.of_append {s t : List Char} (hs : s ≠ [])
    (h : BeginsWithReference (s ++ '$' :: t)) : BeginsWithReference s := by
  obtain ⟨name, hname, hbegins⟩ := h
  rcases Text.prefix_append_cases hbegins with hs' | ⟨rest, hrest, hdollar⟩
  · exact ⟨name, hname, hs'⟩
  · obtain ⟨c, front, rfl⟩ := List.exists_cons_of_ne_nil hs
    rw [List.cons_append, referenceText, List.cons.injEq] at hrest
    cases rest with
    | nil =>
      refine ⟨name, hname, ?_⟩
      rw [List.append_nil] at hrest
      rw [referenceText, hrest.1, hrest.2]
    | cons d rest =>
      -- the second dollar would be inside the reference
      have hd : d = '$' := (List.cons_prefix_cons.1 hdollar).1
      exact absurd (hrest.2 ▸ by simp [hd]) hname.dollar_not_mem

/-! ## divisions -/

/-- What a text is made of. -/
inductive TextPart where
  | reference (name : List Char)
  | char (c : Char)
  deriving DecidableEq, Repr

namespace TextPart

/-- A part as it is written. -/
def written : TextPart → List Char
  | .reference name => referenceText name
  | .char c => [c]

/-- What stands in place of a part once it is expanded. -/
def value (p : Properties) : TextPart → List Char
  | .reference name => ((p.get? (foldCase (.ofList name))).getD "").toList
  | .char c => [c]

end TextPart

/-- Being the parts of a text: references to properties, and characters at which none
begins. -/
structure IsDivision (s : List Char) (parts : List TextPart) : Prop where
  written_eq : parts.flatMap TextPart.written = s
  isPropertyName : ∀ name, .reference name ∈ parts → IsPropertyName name
  /-- A character is on its own only if no reference begins with it. -/
  leftmost : ∀ c after, .char c :: after <:+ parts →
    ¬ BeginsWithReference (c :: after.flatMap TextPart.written)

theorem isDivision_nil {s : List Char} : IsDivision s [] ↔ s = [] := by
  refine ⟨fun h => h.written_eq.symm, ?_⟩
  rintro rfl
  exact ⟨rfl, by simp, by simp⟩

theorem isDivision_reference {s name : List Char} {parts : List TextPart} :
    IsDivision s (.reference name :: parts) ↔
      IsPropertyName name ∧ ∃ rest, s = referenceText name ++ rest ∧ IsDivision rest parts := by
  constructor
  · rintro ⟨hwritten, hnames, hleftmost⟩
    exact ⟨hnames name List.mem_cons_self, _, hwritten.symm, rfl,
      fun other hother => hnames other (List.mem_cons_of_mem _ hother),
      fun c after h => hleftmost c after (h.trans (List.suffix_cons _ _))⟩
  · rintro ⟨hname, _, rfl, rfl, hnames, hleftmost⟩
    refine ⟨rfl, fun other hother => ?_, fun c after h => ?_⟩
    · rcases List.mem_cons.1 hother with heq | hmem
      · exact TextPart.reference.inj heq ▸ hname
      · exact hnames other hmem
    · rcases List.suffix_cons_iff.1 h with heq | hsuffix
      · cases heq
      · exact hleftmost c after hsuffix

theorem isDivision_char {s : List Char} {c : Char} {parts : List TextPart} :
    IsDivision s (.char c :: parts) ↔
      ∃ rest, s = c :: rest ∧ ¬ BeginsWithReference (c :: rest) ∧ IsDivision rest parts := by
  constructor
  · rintro ⟨hwritten, hnames, hleftmost⟩
    exact ⟨_, hwritten.symm, hleftmost c parts List.suffix_rfl, rfl,
      fun other hother => hnames other (List.mem_cons_of_mem _ hother),
      fun c after h => hleftmost c after (h.trans (List.suffix_cons _ _))⟩
  · rintro ⟨_, rfl, hc, rfl, hnames, hleftmost⟩
    refine ⟨rfl, fun other hother => ?_, fun d after h => ?_⟩
    · rcases List.mem_cons.1 hother with heq | hmem
      · cases heq
      · exact hnames other hmem
    · rcases List.suffix_cons_iff.1 h with heq | hsuffix
      · cases heq
        exact hc
      · exact hleftmost d after hsuffix

theorem exists_isDivision (s : List Char) : ∃ parts, IsDivision s parts := by
  induction hn : s.length using Nat.strongRecOn generalizing s with
  | ind n ih =>
  subst hn
  cases s with
  | nil => exact ⟨[], isDivision_nil.2 rfl⟩
  | cons c rest =>
    by_cases hbegins : BeginsWithReference (c :: rest)
    · obtain ⟨name, hname, after, hs⟩ := hbegins
      have hlength : after.length < (c :: rest).length := by
        rw [← hs, List.length_append, referenceText, List.length_cons]
        omega
      obtain ⟨parts, hparts⟩ := ih _ hlength after rfl
      exact ⟨.reference name :: parts, isDivision_reference.2 ⟨hname, after, hs.symm, hparts⟩⟩
    · obtain ⟨parts, hparts⟩ := ih _ (Nat.lt_succ_self _) rest rfl
      exact ⟨.char c :: parts, isDivision_char.2 ⟨rest, rfl, hbegins, hparts⟩⟩

theorem IsDivision.ne_nil {s : List Char} {part : TextPart} {parts : List TextPart}
    (h : IsDivision s (part :: parts)) : s ≠ [] := by
  rintro rfl
  have hwritten := h.written_eq
  cases part <;> cases hwritten

/-- A text begins with one part only, and what is behind it is divided in turn. -/
theorem IsDivision.cons_cons {s : List Char} {part other : TextPart} {parts others : List TextPart}
    (h : IsDivision s (part :: parts)) (h' : IsDivision s (other :: others)) :
    other = part ∧ ∃ rest, IsDivision rest parts ∧ IsDivision rest others := by
  cases part with
  | reference name =>
    obtain ⟨hname, rest, rfl, hrest⟩ := isDivision_reference.1 h
    cases other with
    | reference name' =>
      obtain ⟨hname', rest', hs, hrest'⟩ := isDivision_reference.1 h'
      have htake := takeReference_append hname rest
      have htake' := takeReference_eq_some_iff.2 ⟨hname', hs⟩
      obtain ⟨rfl, rfl⟩ := Prod.mk.inj (Option.some.inj (htake.symm.trans htake'))
      exact ⟨rfl, rest, hrest, hrest'⟩
    | char d =>
      obtain ⟨rest', hs, hd, -⟩ := isDivision_char.1 h'
      rw [← hs] at hd
      exact absurd ⟨name, hname, List.prefix_append _ _⟩ hd
  | char c =>
    obtain ⟨rest, rfl, hc, hrest⟩ := isDivision_char.1 h
    cases other with
    | reference name' =>
      obtain ⟨hname', rest', hs, -⟩ := isDivision_reference.1 h'
      exact absurd ⟨name', hname', hs ▸ List.prefix_append _ _⟩ hc
    | char d =>
      obtain ⟨rest', hs, -, hrest'⟩ := isDivision_char.1 h'
      obtain ⟨rfl, rfl⟩ := List.cons.inj hs
      exact ⟨rfl, rest, hrest, hrest'⟩

/-- A text has one division. -/
theorem IsDivision.unique {s : List Char} {parts others : List TextPart} (h : IsDivision s parts)
    (h' : IsDivision s others) : others = parts := by
  induction parts generalizing s others with
  | nil =>
    cases others with
    | nil => rfl
    | cons other others => exact absurd (isDivision_nil.1 h) h'.ne_nil
  | cons part parts ih =>
    cases others with
    | nil => exact absurd (isDivision_nil.1 h') h.ne_nil
    | cons other others =>
      obtain ⟨rfl, rest, hrest, hrest'⟩ := h.cons_cons h'
      rw [ih hrest hrest']

/-- Texts on either side of a reference are divided on their own. -/
theorem IsDivision.append_reference {s t name : List Char} {parts others : List TextPart}
    (hs : IsDivision s parts) (hname : IsPropertyName name) (ht : IsDivision t others) :
    IsDivision (s ++ (referenceText name ++ t)) (parts ++ .reference name :: others) := by
  induction parts generalizing s with
  | nil =>
    rw [isDivision_nil.1 hs]
    exact isDivision_reference.2 ⟨hname, t, rfl, ht⟩
  | cons part parts ih =>
    cases part with
    | reference other =>
      obtain ⟨hother, rest, rfl, hrest⟩ := isDivision_reference.1 hs
      exact isDivision_reference.2 ⟨hother, _, List.append_assoc _ _ _, ih hrest⟩
    | char c =>
      obtain ⟨rest, rfl, hc, hrest⟩ := isDivision_char.1 hs
      have hbegins : ¬ BeginsWithReference (c :: (rest ++ (referenceText name ++ t))) := fun h =>
        hc (BeginsWithReference.of_append (List.cons_ne_nil c rest) h)
      exact isDivision_char.2 ⟨_, rfl, hbegins, ih hrest⟩

/-! ## expanding -/

theorem expandText_reference (p : Properties) {name : List Char} (h : IsPropertyName name)
    (s : List Char) : expandText p (referenceText name ++ s) =
      TextPart.value p (.reference name) ++ expandText p s := by
  have htake := takeReference_append h s
  rw [referenceText, List.cons_append] at htake ⊢
  rw [expandText]
  split
  · next hsome =>
    obtain ⟨rfl, rfl⟩ := Prod.mk.inj (Option.some.inj (htake.symm.trans hsome))
    rfl
  · next hnone => cases htake.symm.trans hnone

theorem expandText_char (p : Properties) {c : Char} {s : List Char}
    (h : ¬ BeginsWithReference (c :: s)) : expandText p (c :: s) = c :: expandText p s := by
  rw [← takeReference_eq_none_iff] at h
  rw [expandText]
  split
  · next hsome => cases h.symm.trans hsome
  · rfl

theorem IsDivision.expandText_eq (p : Properties) {s : List Char} {parts : List TextPart}
    (h : IsDivision s parts) : expandText p s = parts.flatMap (TextPart.value p) := by
  induction parts generalizing s with
  | nil => rw [isDivision_nil.1 h, expandText]; rfl
  | cons part parts ih =>
    cases part with
    | reference name =>
      obtain ⟨hname, rest, rfl, hrest⟩ := isDivision_reference.1 h
      rw [expandText_reference p hname, ih hrest, List.flatMap_cons]
    | char c =>
      obtain ⟨rest, rfl, hc, hrest⟩ := isDivision_char.1 h
      rw [expandText_char p hc, ih hrest]
      rfl

/-- A reference is replaced whatever stands around it. -/
theorem expandText_append (p : Properties) {name : List Char} (h : IsPropertyName name)
    (s t : List Char) : expandText p (s ++ (referenceText name ++ t)) =
      expandText p s ++ (TextPart.value p (.reference name) ++ expandText p t) := by
  obtain ⟨parts, hs⟩ := exists_isDivision s
  obtain ⟨others, ht⟩ := exists_isDivision t
  rw [(hs.append_reference h ht).expandText_eq, hs.expandText_eq, ht.expandText_eq,
    List.flatMap_append, List.flatMap_cons]

/-- What no reference begins in stays as it is. -/
theorem expandText_eq_self (p : Properties) {s : List Char}
    (h : ∀ name, IsPropertyName name → ¬ referenceText name <:+: s) : expandText p s = s := by
  induction s with
  | nil => rw [expandText]
  | cons c rest ih =>
    have hc : ¬ BeginsWithReference (c :: rest) := by
      rintro ⟨name, hname, hbegins⟩
      exact h name hname hbegins.isInfix
    have hrest : ∀ name, IsPropertyName name → ¬ referenceText name <:+: rest :=
      fun name hname hwithin => h name hname (hwithin.trans (List.suffix_cons c rest).isInfix)
    rw [expandText_char p hc, ih hrest]

/-- An expanded text is the one division of the text, with values in place of its
references.  It follows for a reference that it is replaced whatever stands around it,
and for a text without any that it stays as it is. -/
theorem Properties.expand_division (p : Properties) (s : String) :
    (∃ parts, IsDivision s.toList parts ∧ (∀ others, IsDivision s.toList others → others = parts) ∧
      p.expand s = .ofList (parts.flatMap (TextPart.value p))) ∧
    (∀ before name after : String, IsPropertyName name.toList →
      p.expand (before ++ "$(" ++ name ++ ")" ++ after) =
        p.expand before ++ (p.get? (foldCase name)).getD "" ++ p.expand after) ∧
    ((∀ name, IsPropertyName name → ¬ referenceText name <:+: s.toList) → p.expand s = s) := by
  refine ⟨?_, fun before name after hname => ?_, fun h => ?_⟩
  · obtain ⟨parts, hparts⟩ := exists_isDivision s.toList
    exact ⟨parts, hparts, fun others => hparts.unique, by rw [expand, hparts.expandText_eq]⟩
  · have htext : (before ++ "$(" ++ name ++ ")" ++ after).toList =
        before.toList ++ (referenceText name.toList ++ after.toList) := by
      simp [referenceText]
    rw [← String.toList_inj, expand, expand, expand, htext, expandText_append p hname]
    simp [TextPart.value]
  · rw [expand, expandText_eq_self p h, String.ofList_toList]

/-- A property with a value that reads like a reference, and the one it would name. -/
def referringProperties : Properties := ⟨[("x", "$(y)"), ("y", "z")]⟩

theorem expand_division_nested :
    IsPropertyName "X".toList ∧
      (∀ name, IsPropertyName name → ¬ referenceText name <:+: "$(".toList) ∧
      referringProperties.expand ("$(" ++ "$(" ++ "X" ++ ")" ++ ")") =
        "$(" ++ "$(y)" ++ referringProperties.expand ")" := by
  have hname : IsPropertyName "X".toList :=
    ⟨'X', [], rfl, by decide, List.forall_mem_nil _⟩
  have hnone : ∀ name, IsPropertyName name → ¬ referenceText name <:+: "$(".toList := by
    intro name _ hwithin
    have hlength := hwithin.length_le
    simp [referenceText] at hlength
  have hvalue : referringProperties.get? (foldCase "X") = some "$(y)" := by cbv
  obtain ⟨-, hreplaced, hkept⟩ := referringProperties.expand_division "$("
  refine ⟨hname, hnone, ?_⟩
  rw [hreplaced "$(" "X" ")" hname, hkept hnone, hvalue, Option.getD_some]

example : referringProperties.expand "$($(X))$()$(1x)$(Y" = "$($(y))$()$(1x)$(Y" := by cbv

end ResourceAudit
