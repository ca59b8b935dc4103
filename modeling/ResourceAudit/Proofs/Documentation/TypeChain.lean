import ResourceAudit.Proofs.Documentation.TypeExpr

/-!
# ResourceAudit.Proofs.Documentation.TypeChain

Types inside generic types.  A chain is names with dots between them, and each of the
names may have type arguments.  In the name of a chain all of them stand in braces.
The name that is computed is that name just if type arguments stand at the ends of
chains only (`TypeChain.typeName_spread_chain`): the first opening bracket of a text is
taken to belong to its last closing one, so arguments of an inner name are cut in the
middle or left as they are, and angle brackets stay.
-/

namespace ResourceAudit.Documentation

open ResourceAudit.Text

/-! ## brackets in pairs -/

/-- Having as many closing brackets as opening ones, and never more of them up to any
place. -/
structure IsBalanced (opening closing : Char) (s : List Char) : Prop where
  count_le : ∀ p, p <+: s → p.count closing ≤ p.count opening
  count_eq : s.count opening = s.count closing

namespace IsBalanced

variable {opening closing : Char} {s t : List Char}

theorem of_not_mem (hopening : opening ∉ s) (hclosing : closing ∉ s) :
    IsBalanced opening closing s where
  count_le p hp := by
    rw [List.count_eq_zero_of_not_mem fun h => hclosing (hp.subset h)]
    exact Nat.zero_le _
  count_eq := by
    rw [List.count_eq_zero_of_not_mem hopening, List.count_eq_zero_of_not_mem hclosing]

theorem append (hs : IsBalanced opening closing s) (ht : IsBalanced opening closing t) :
    IsBalanced opening closing (s ++ t) where
  count_le p hp := by
    rcases prefix_append_cases hp with hp | ⟨q, rfl, hq⟩
    · exact hs.count_le p hp
    · rw [List.count_append, List.count_append, hs.count_eq]
      exact Nat.add_le_add_left (ht.count_le q hq) _
  count_eq := by rw [List.count_append, List.count_append, hs.count_eq, ht.count_eq]

/-- What is balanced may be put in brackets. -/
theorem enclose (hs : IsBalanced opening closing s) (hne : opening ≠ closing) :
    IsBalanced opening closing (opening :: (s ++ [closing])) where
  count_le p hp := by
    rcases List.prefix_cons_iff.1 hp with rfl | ⟨q, rfl, hq⟩
    · exact Nat.le_refl _
    · rw [List.count_cons_self, List.count_cons_of_ne hne]
      rcases List.prefix_concat_iff.1 hq with rfl | hq
      · rw [List.count_append, List.count_append, List.count_singleton_self, hs.count_eq]
        omega
      · exact Nat.le_succ_of_le (hs.count_le q hq)
  count_eq := by
    rw [List.count_cons_self, List.count_cons_of_ne hne, List.count_append, List.count_append,
      List.count_singleton_self, List.count_singleton, beq_false_of_ne hne.symm, hs.count_eq]
    simp

theorem intercalate {parts : List (List Char)} (hcomma : IsBalanced opening closing [','])
    (h : ∀ part ∈ parts, IsBalanced opening closing part) :
    IsBalanced opening closing (List.intercalate [','] parts) := by
  induction parts with
  | nil => exact of_not_mem List.not_mem_nil List.not_mem_nil
  | cons part parts ih =>
    rw [List.forall_mem_cons] at h
    cases parts with
    | nil => simpa using h.1
    | cons next parts =>
      rw [List.intercalate_cons_cons]
      exact (h.1.append hcomma).append (ih h.2)

end IsBalanced

/-! ## chains -/

/-- Names with dots between them, each with its type arguments, if it has any. -/
inductive TypeChain where
  | last (id : Identifier) (arguments : List TypeChain)
  | inner (id : Identifier) (arguments : List TypeChain) (next : TypeChain)

theorem IsBalanced.enclosed {opening closing : Char} {parts : List (List Char)}
    (hne : opening ≠ closing) (hcomma : IsBalanced opening closing [','])
    (h : ∀ part ∈ parts, IsBalanced opening closing part) :
    IsBalanced opening closing (enclosed opening closing parts) := by
  cases parts with
  | nil => exact .of_not_mem List.not_mem_nil List.not_mem_nil
  | cons part parts => exact (IsBalanced.intercalate hcomma h).enclose hne

namespace TypeChain

mutual
/-- The tokens of a chain. -/
def tokens : TypeChain → List (List Char)
  | last id arguments => id.chars :: listTokens (tokensOf arguments)
  | inner id arguments next => id.chars :: listTokens (tokensOf arguments) ++ ['.'] :: next.tokens

/-- The tokens of each of some chains. -/
def tokensOf : List TypeChain → List (List (List Char))
  | [] => []
  | c :: cs => c.tokens :: tokensOf cs
end

/-- The text of a chain without white space. -/
def text (c : TypeChain) : List Char := c.tokens.flatten

mutual
/-- A chain with its type arguments in braces.  A keyword is one only if it stands
alone. -/
def braced (isAlone : Bool) : TypeChain → List Char
  | last id arguments =>
    if isAlone && arguments.isEmpty then (keywordType? id.chars).elim id.chars String.toList
    else id.chars ++ enclosed '{' '}' (names arguments)
  | inner id arguments next =>
    id.chars ++ enclosed '{' '}' (names arguments) ++ '.' :: next.braced false

/-- The names of chains. -/
def names : List TypeChain → List (List Char)
  | [] => []
  | c :: cs => c.braced true :: names cs
end

/-- The name of a chain in a documentation ID. -/
def name (c : TypeChain) : List Char := c.braced true

mutual
/-- Whether type arguments stand at the ends of chains only. -/
def isFlat : TypeChain → Bool
  | last _ arguments => areFlat arguments
  | inner _ arguments next => arguments.isEmpty && next.isFlat

def areFlat : List TypeChain → Bool
  | [] => true
  | c :: cs => c.isFlat && areFlat cs
end

theorem tokensOf_eq (cs : List TypeChain) : tokensOf cs = cs.map tokens := by
  induction cs with
  | nil => rfl
  | cons c cs ih => rw [tokensOf, ih, List.map_cons]

theorem names_eq (cs : List TypeChain) : names cs = cs.map name := by
  induction cs with
  | nil => rfl
  | cons c cs ih => rw [names, ih, List.map_cons, name]

theorem areFlat_eq (cs : List TypeChain) : areFlat cs = cs.all isFlat := by
  induction cs with
  | nil => rfl
  | cons c cs ih => rw [areFlat, ih, List.all_cons]

/-- What holds of a chain if it holds of its arguments and of what comes next holds of
every chain. -/
@[induction_eliminator]
theorem induction {P : TypeChain → Prop}
    (last : ∀ id arguments, (∀ c ∈ arguments, P c) → P (.last id arguments))
    (inner : ∀ id arguments next, (∀ c ∈ arguments, P c) → P next → P (.inner id arguments next))
    (c : TypeChain) : P c :=
  @TypeChain.rec P (fun cs => ∀ c ∈ cs, P c) last inner
    (List.forall_mem_nil P) (fun _ _ hc hcs => List.forall_mem_cons.2 ⟨hc, hcs⟩) c

/-! ### texts -/

theorem flatten_listTokens_tokensOf (cs : List TypeChain) :
    (listTokens (tokensOf cs)).flatten = enclosed '<' '>' (cs.map text) := by
  rw [flatten_listTokens, tokensOf_eq, List.map_map]
  rfl

theorem text_last (id : Identifier) (arguments : List TypeChain) :
    (last id arguments).text = id.chars ++ enclosed '<' '>' (arguments.map text) := by
  rw [text, tokens, List.flatten_cons, flatten_listTokens_tokensOf]

theorem text_inner (id : Identifier) (arguments : List TypeChain) (next : TypeChain) :
    (inner id arguments next).text =
      id.chars ++ enclosed '<' '>' (arguments.map text) ++ '.' :: next.text := by
  rw [text, tokens, List.cons_append, List.flatten_cons, List.flatten_append,
    flatten_listTokens_tokensOf, List.append_assoc]
  rfl

/-- What holds of identifiers and dots, of texts in a row and of lists in angle brackets
holds of the text of every chain. -/
theorem text_induction {P : List Char → Prop} (name : ∀ id : Identifier, P id.chars)
    (dot : P ['.']) (append : ∀ s t, P s → P t → P (s ++ t))
    (list : ∀ parts, (∀ part ∈ parts, P part) → P (enclosed '<' '>' parts)) (c : TypeChain) :
    P c.text := by
  have hfront : ∀ (id : Identifier) (arguments : List TypeChain), (∀ c ∈ arguments, P c.text) →
      P (id.chars ++ enclosed '<' '>' (arguments.map text)) := fun id arguments h =>
    append _ _ (name id) (list _ (List.forall_mem_map.2 h))
  induction c with
  | last id arguments ih =>
    rw [text_last]
    exact hfront id arguments ih
  | inner id arguments next ih hnext =>
    rw [text_inner, ← List.singleton_append]
    exact append _ _ (hfront id arguments ih) (append _ _ dot hnext)

/-- The text of a chain is part of one argument wherever it stands. -/
theorem isWhole_text (c : TypeChain) : IsWhole c.text :=
  c.text_induction (fun id => id.isNameText.isWhole)
    (isWhole_of_forall (List.all_iff_forall_prop.1 rfl)) (fun _ _ => IsWhole.append)
    fun _ => isWhole_enclosed

theorem isBlank_text (c : TypeChain) : ∀ x ∈ c.text, isBlank x = false :=
  c.text_induction (P := fun s => ∀ x ∈ s, isBlank x = false)
    (fun id _ hx => id.isNameText.isBlank_eq_false hx) (List.forall_mem_singleton.2 rfl)
    (fun _ _ hs ht => List.forall_mem_append.2 ⟨hs, ht⟩) fun _ => isBlank_enclosed

/-! ### names -/

/-- Having no angle brackets, and braces in pairs. -/
structure HasBracesOnly (s : List Char) : Prop where
  lt_not_mem : '<' ∉ s
  gt_not_mem : '>' ∉ s
  isBalanced : IsBalanced '{' '}' s

namespace HasBracesOnly

theorem of_isNameText {s : List Char} (h : IsNameText s) : HasBracesOnly s where
  lt_not_mem := h.mark_not_mem (by decide)
  gt_not_mem := h.mark_not_mem (by decide)
  isBalanced := .of_not_mem (h.mark_not_mem (by decide)) (h.mark_not_mem (by decide))

theorem append {s t : List Char} (hs : HasBracesOnly s) (ht : HasBracesOnly t) :
    HasBracesOnly (s ++ t) where
  lt_not_mem := by simp [hs.lt_not_mem, ht.lt_not_mem]
  gt_not_mem := by simp [hs.gt_not_mem, ht.gt_not_mem]
  isBalanced := hs.isBalanced.append ht.isBalanced

theorem enclosed {parts : List (List Char)} (h : ∀ part ∈ parts, HasBracesOnly part) :
    HasBracesOnly (enclosed '{' '}' parts) where
  lt_not_mem hmem := forall_mem_enclosed (p := (· ≠ '<')) (by decide) (by decide) (by decide)
    (fun part hpart c hc hlt => (h part hpart).lt_not_mem (hlt ▸ hc)) '<' hmem rfl
  gt_not_mem hmem := forall_mem_enclosed (p := (· ≠ '>')) (by decide) (by decide) (by decide)
    (fun part hpart c hc hgt => (h part hpart).gt_not_mem (hgt ▸ hc)) '>' hmem rfl
  isBalanced := .enclosed (by decide) (.of_not_mem (by decide) (by decide))
    fun part hpart => (h part hpart).isBalanced

end HasBracesOnly

theorem isNameText_keywordType? (id : Identifier) :
    IsNameText ((keywordType? id.chars).elim id.chars String.toList) := by
  cases h : keywordType? id.chars with
  | none => exact id.isNameText
  | some s =>
    obtain ⟨k, hk⟩ := TypeKeyword.exists_word_of_keywordType? h
    rw [← hk, k.keywordType?_word] at h
    cases h
    exact k.isNameText_systemName

theorem hasBracesOnly_braced (c : TypeChain) (isAlone : Bool) :
    HasBracesOnly (c.braced isAlone) := by
  induction c generalizing isAlone with
  | last id arguments ih =>
    rw [braced]
    split
    · exact .of_isNameText (isNameText_keywordType? id)
    · rw [names_eq]
      exact (HasBracesOnly.of_isNameText id.isNameText).append
        (.enclosed (List.forall_mem_map.2 fun c hc => ih c hc true))
  | inner id arguments next ih hnext =>
    have hdot : HasBracesOnly ['.'] :=
      ⟨by decide, by decide, .of_not_mem (by decide) (by decide)⟩
    rw [braced, names_eq, ← List.singleton_append]
    exact ((HasBracesOnly.of_isNameText id.isNameText).append
      (.enclosed (List.forall_mem_map.2 fun c hc => ih c hc true))).append
        (hdot.append (hnext false))

/-- The name of a chain has no angle brackets, and its braces are in pairs. -/
theorem hasBracesOnly_name (c : TypeChain) : HasBracesOnly c.name := hasBracesOnly_braced c true

/-! ### arguments at the end -/

/-- Identifiers with a dot behind each. -/
def dots (ids : List Identifier) : List Char := ids.flatMap fun id => id.chars ++ ['.']

theorem dots_concat (ids : List Identifier) (id : Identifier) (s : List Char) :
    dots (ids ++ [id]) ++ s = dots ids ++ id.chars ++ '.' :: s := by
  simp [dots]

theorem isNameText_dots (ids : List Identifier) (id : Identifier) :
    IsNameText (dots ids ++ id.chars) := by
  induction ids with
  | nil => exact id.isNameText
  | cons first ids ih => simpa [dots] using first.isNameText.dot ih

/-- The text of a chain goes on from its first name with a bracket or a dot, if it
does. -/
theorem exists_text (c : TypeChain) : ∃ (id : Identifier) (rest : List Char),
    c.text = id.chars ++ rest ∧ ∀ x ∈ rest.head?, x ∉ "global::".toList := by
  cases c with
  | last id arguments =>
    refine ⟨id, _, text_last id arguments, ?_⟩
    cases arguments <;> simp [enclosed]
  | inner id arguments next =>
    refine ⟨id, _, (text_inner id arguments next).trans (List.append_assoc _ _ _), ?_⟩
    cases arguments <;> simp [enclosed]

theorem withoutGlobal_dots (ids : List Identifier) (c : TypeChain) :
    withoutGlobal (dots ids ++ c.text) = dots ids ++ c.text := by
  obtain ⟨id, rest, htext, hrest⟩ := c.exists_text
  rw [htext, ← List.append_assoc]
  exact withoutGlobal_eq_self
    (global_not_isPrefix_append (isNameText_dots ids id).global_not_isPrefix hrest)

theorem keywordType?_dots {ids : List Identifier} (hne : ids ≠ []) (s : List Char) :
    keywordType? (dots ids ++ s) = none := by
  refine TypeKeyword.keywordType?_eq_none fun k hk => ?_
  obtain ⟨first, ids, rfl⟩ := List.exists_cons_of_ne_nil hne
  have hdot : '.' ∉ k.word.toList := by cases k <;> decide
  exact hdot (by simp [hk, dots])

/-- A chain with type arguments at the ends of chains only gets its name, and so does
one behind other names. -/
theorem typeNameOf_of_isFlat {c : TypeChain} (h : c.isFlat = true) (ids : List Identifier) :
    typeNameOf (dots ids ++ c.text) = dots ids ++ c.braced ids.isEmpty := by
  induction c generalizing ids with
  | last id arguments ih =>
    rw [isFlat, areFlat_eq, List.all_eq_true] at h
    rw [text_last, braced]
    cases arguments with
    | nil =>
      rw [List.map_nil, enclosed, List.append_nil, typeNameOf_eq,
        (isNameText_dots ids id).withoutGlobal_eq, (isNameText_dots ids id).typeForm, TypeForm.name]
      cases ids with
      | nil => rfl
      | cons first ids => simp [keywordType?_dots, names, enclosed]
    | cons c cs =>
      have hwhole : ∀ part ∈ (c :: cs).map text, IsWhole part :=
        List.forall_mem_map.2 fun c _ => c.isWhole_text
      have hnames : ((c :: cs).map text).map typeNameOf = names (c :: cs) := by
        rw [names_eq, List.map_map]
        exact List.map_congr_left fun c hc => ih c hc (h c hc) []
      rw [← List.append_assoc, typeNameOf_enclosed (isNameText_dots ids id) (by simp) hwhole,
        hnames]
      simp
  | inner id arguments next ih hnext =>
    obtain ⟨harguments, hflat⟩ := (Bool.and_eq_true _ _).to_iff.1 h
    obtain rfl : arguments = [] := List.isEmpty_iff.1 harguments
    have hrest := hnext hflat (ids ++ [id])
    have hbehind : (ids ++ [id]).isEmpty = false := by simp
    rw [dots_concat, dots_concat, hbehind] at hrest
    simpa [text_inner, braced, names, enclosed] using hrest

end TypeChain

/-! ## brackets that stay -/

/-- Having more closing than opening angle brackets up to some place. -/
def HasExcess (s : List Char) : Prop := ∃ p, p <+: s ∧ p.count '<' < p.count '>'

namespace HasExcess

theorem gt_mem {s : List Char} (h : HasExcess s) : '>' ∈ s := by
  obtain ⟨p, hp, hcount⟩ := h
  exact hp.subset (List.count_pos_iff.1 (by omega))

/-- More text in front, with as many opening as closing brackets at least, leaves the
excess behind it. -/
theorem of_append {s t : List Char} (h : HasExcess (s ++ t)) :
    HasExcess s ∨ ∃ p, p <+: t ∧ s.count '<' + p.count '<' < s.count '>' + p.count '>' := by
  obtain ⟨p, hp, hcount⟩ := h
  rcases prefix_append_cases hp with hp | ⟨q, rfl, hq⟩
  · exact .inl ⟨p, hp, hcount⟩
  · rw [List.count_append, List.count_append] at hcount
    exact .inr ⟨q, hq, hcount⟩

/-- The excess of two texts in a row is in one of them. -/
theorem append_cases {s t : List Char} (h : HasExcess (s ++ t)) : HasExcess s ∨ HasExcess t := by
  rcases h.of_append with h | ⟨p, hp, hcount⟩
  · exact .inl h
  · by_cases hs : s.count '<' < s.count '>'
    · exact .inl ⟨s, List.prefix_refl s, hs⟩
    · exact .inr ⟨p, hp, by omega⟩

theorem of_append_left {s t : List Char} (h : HasExcess (s ++ t)) (ht : '>' ∉ t) : HasExcess s :=
  h.append_cases.resolve_right fun h => ht h.gt_mem

theorem of_append_right {s t : List Char} (h : HasExcess (s ++ t)) (hs : '>' ∉ s) : HasExcess t :=
  h.append_cases.resolve_left fun h => hs h.gt_mem

theorem exists_mem_of_intercalate {parts : List (List Char)}
    (h : HasExcess (List.intercalate [','] parts)) : ∃ part ∈ parts, HasExcess part := by
  induction parts with
  | nil => cases h.gt_mem
  | cons part parts ih =>
    cases parts with
    | nil => exact ⟨part, List.mem_cons_self, by simpa using h⟩
    | cons next parts =>
      rw [List.intercalate_cons_cons, List.append_assoc] at h
      rcases h.append_cases with hpart | hrest
      · exact ⟨part, List.mem_cons_self, hpart⟩
      · obtain ⟨other, hmem, hother⟩ := ih (hrest.of_append_right (by decide))
        exact ⟨other, List.mem_cons_of_mem _ hmem, hother⟩

theorem withoutGlobal {s : List Char} (h : HasExcess s) : HasExcess (withoutGlobal s) := by
  by_cases hglobal : "global::".toList <+: s
  · obtain ⟨t, rfl⟩ := hglobal
    rw [withoutGlobal_global]
    exact h.of_append_right (by decide)
  · rwa [withoutGlobal_eq_self hglobal]

/-- A generic type with an excess has it in its arguments, unless its name has a closing
bracket. -/
theorem of_generic {name inside : List Char}
    (h : HasExcess (name ++ '<' :: (inside ++ ['>']))) (hname : '>' ∉ name) : HasExcess inside := by
  rw [List.append_cons] at h
  rcases h.of_append with h | ⟨p, hp, hcount⟩
  · exact absurd h.gt_mem (by simpa using hname)
  · have hbehind : p.count '<' + 1 < p.count '>' := by
      simp [List.count_eq_zero_of_not_mem hname] at hcount
      omega
    rcases List.prefix_concat_iff.1 hp with rfl | hp
    · exact ⟨inside, List.prefix_refl inside, by simpa using hbehind⟩
    · exact ⟨p, hp, by omega⟩

theorem text_of_form {s : List Char} (h : HasExcess s) {form : TypeForm}
    (hform : TypeForm.of (Documentation.withoutGlobal s) = form) : HasExcess form.text := by
  rw [← hform, TypeForm.text_of]
  exact h.withoutGlobal

theorem gt_mem_names {s : List Char} (h : HasExcess s)
    (hnames : ∀ argument ∈ arguments s, HasExcess argument → '>' ∈ typeNameOf argument) :
    '>' ∈ List.intercalate [','] ((arguments s).map typeNameOf) := by
  have hs : HasExcess (List.intercalate [','] (arguments s)) := by
    rwa [arguments, intercalate_argumentsFrom]
  obtain ⟨argument, hmem, hargument⟩ := hs.exists_mem_of_intercalate
  exact mem_intercalate_of_mem (List.mem_map_of_mem hmem) (hnames argument hmem hargument)

/-- With a closing bracket too many in a type, one stays in its name. -/
theorem gt_mem_typeNameOf {s : List Char} (h : HasExcess s) : '>' ∈ typeNameOf s := by
  induction s using typeNameOf.induct with
  | case1 s element hform ih =>
    have helement : HasExcess element := (h.text_of_form hform).of_append_left (by decide)
    rw [typeNameOf_eq, hform, TypeForm.name]
    exact List.mem_append_left _ (ih helement)
  | case2 s value hform hvalue ih =>
    have hinner : HasExcess value := (h.text_of_form hform).of_append_left (by decide)
    rw [typeNameOf_eq, hform, TypeForm.name, if_pos hvalue]
    exact List.mem_append_left _ (List.mem_append_right _ (ih hinner))
  | case3 s value hform hvalue ih =>
    have hinner : HasExcess value := (h.text_of_form hform).of_append_left (by decide)
    rw [typeNameOf_eq, hform, TypeForm.name, if_neg hvalue]
    exact ih hinner
  | case4 s name inside hform ih =>
    rw [typeNameOf_eq, hform, TypeForm.name]
    by_cases hname : '>' ∈ name
    · simp [hname]
    · have hnames := ((h.text_of_form hform).of_generic hname).gt_mem_names ih
      simp [hnames]
  | case5 s name hform =>
    have hgt : '>' ∈ name := (h.text_of_form hform).gt_mem
    rwa [typeNameOf_eq, hform, TypeForm.name, keywordType?_of_mark (by decide) hgt]

end HasExcess

namespace TypeChain

theorem isBalanced_text (c : TypeChain) : IsBalanced '<' '>' c.text := by
  have hname : ∀ id : Identifier, IsBalanced '<' '>' id.chars := fun id =>
    .of_not_mem (id.isNameText.mark_not_mem (by decide)) (id.isNameText.mark_not_mem (by decide))
  have hcomma : IsBalanced '<' '>' [','] := .of_not_mem (by decide) (by decide)
  have hdot : IsBalanced '<' '>' ['.'] := .of_not_mem (by decide) (by decide)
  exact c.text_induction hname hdot (fun _ _ => IsBalanced.append)
    fun _ => IsBalanced.enclosed (by decide) hcomma

/-- A chain ends in an argument list or in a name. -/
theorem text_ends (c : TypeChain) :
    (∃ front, c.text = front ++ ['>']) ∨ ∃ x ∈ c.text.getLast?, isNameChar x = true := by
  induction c with
  | last id arguments =>
    rw [text_last]
    cases arguments with
    | nil => exact .inr (by simpa [enclosed] using id.isNameText.isNameChar_getLast)
    | cons c cs => exact .inl ⟨id.chars ++ '<' :: List.intercalate [','] ((c :: cs).map text),
        by simp [enclosed]⟩
  | inner id arguments next ih hnext =>
    rw [text_inner]
    rcases hnext with ⟨front, hfront⟩ | ⟨x, hx, hname⟩
    · exact .inl ⟨_, by rw [hfront, ← List.cons_append, ← List.append_assoc]⟩
    · exact .inr ⟨x, by simp_all [List.getLast?_append, List.getLast?_cons], hname⟩

/-- Arguments in front of a dot leave an angle bracket in the name. -/
theorem angle_mem_inner (ids : List Identifier) (id : Identifier) (c : TypeChain)
    (cs : List TypeChain) (next : TypeChain) :
    ∃ x ∈ ['<', '>'], x ∈ typeNameOf (dots ids ++ (inner id (c :: cs) next).text) := by
  have hlist : IsBalanced '<' '>' (List.intercalate [','] ((c :: cs).map text)) :=
    .intercalate (.of_not_mem (by decide) (by decide))
      (List.forall_mem_map.2 fun c _ => c.isBalanced_text)
  have htext : dots ids ++ (inner id (c :: cs) next).text = dots ids ++ id.chars ++ '<' ::
      (List.intercalate [','] ((c :: cs).map text) ++ ['>'] ++ '.' :: next.text) := by
    rw [text_inner]
    simp [enclosed]
  rw [typeNameOf_eq, withoutGlobal_dots]
  rcases next.text_ends with ⟨front, hfront⟩ | ⟨x, hx, hname⟩
  · -- the first bracket belongs to a list that ends in front of a dot, not to the last bracket
    have hlt : '<' ∉ dots ids ++ id.chars := (isNameText_dots ids id).mark_not_mem (by decide)
    have hexcess : HasExcess
        (List.intercalate [','] ((c :: cs).map text) ++ ['>'] ++ '.' :: front) := by
      refine ⟨_, List.prefix_append _ _, ?_⟩
      rw [List.count_append, List.count_append, hlist.count_eq]
      exact Nat.add_lt_add_left (by decide) _
    have hnames := hexcess.gt_mem_names fun argument _ h => h.gt_mem_typeNameOf
    have hform : TypeForm.of (dots ids ++ (inner id (c :: cs) next).text) =
        .generic (dots ids ++ id.chars)
          (List.intercalate [','] ((c :: cs).map text) ++ ['>'] ++ '.' :: front) := by
      rw [htext, hfront, ← TypeForm.of_generic hlt]
      simp
    rw [hform, TypeForm.name]
    exact ⟨'>', by decide, List.mem_append_left _ (List.mem_append_right _ hnames)⟩
  · have hends : ∀ c ∈ "]?>".toList, isNameChar c = false := List.all_iff_forall_prop.1 rfl
    rw [htext, TypeForm.of_plain, TypeForm.name,
      keywordType?_of_mark (by decide : '<' ∈ _) (by simp)]
    · exact ⟨'<', by decide, by simp⟩
    · intro y hy hend
      obtain rfl : y = x := by
        simp_all [List.getLast?_append, List.getLast?_cons]
      simp [hends y hend] at hname

/-- A chain with type arguments in front of a dot keeps an angle bracket in its name. -/
theorem angle_mem_of_not_isFlat {c : TypeChain} (h : c.isFlat = false) (ids : List Identifier) :
    ∃ x ∈ ['<', '>'], x ∈ typeNameOf (dots ids ++ c.text) := by
  induction c generalizing ids with
  | last id arguments ih =>
    rw [isFlat, areFlat_eq, List.all_eq_false] at h
    obtain ⟨c, hc, hflat⟩ := h
    obtain ⟨x, hx, hmem⟩ := ih c hc (Bool.eq_false_iff.2 hflat) []
    have hwhole : ∀ part ∈ arguments.map text, IsWhole part :=
      List.forall_mem_map.2 fun c _ => c.isWhole_text
    have hnames : typeNameOf c.text ∈ (arguments.map text).map typeNameOf :=
      List.mem_map_of_mem (List.mem_map_of_mem hc)
    have hne : arguments.map text ≠ [] := List.ne_nil_of_mem (List.mem_map_of_mem hc)
    rw [text_last, ← List.append_assoc, typeNameOf_enclosed (isNameText_dots ids id) hne hwhole]
    exact ⟨x, hx, List.mem_append_right _ (mem_enclosed_of_mem hnames hmem)⟩
  | inner id arguments next ih hnext =>
    cases arguments with
    | nil =>
      have hrest := hnext (by simpa [isFlat] using h) (ids ++ [id])
      rw [dots_concat] at hrest
      simpa [text_inner, enclosed] using hrest
    | cons c cs => exact angle_mem_inner ids id c cs next

/-- The name that is computed for a chain is its name just if type arguments stand at the
ends of chains only, and just then it has no angle brackets and braces in pairs. -/
theorem typeName_spread_chain (c : TypeChain) (gap : Nat → Blank) :
    (typeName (.ofList (spread gap c.tokens)) = .ofList c.name ↔ c.isFlat = true) ∧
      (HasBracesOnly (typeName (.ofList (spread gap c.tokens))).toList ↔ c.isFlat = true) := by
  have hname : typeName (.ofList (spread gap c.tokens)) = .ofList (typeNameOf c.text) := by
    rw [typeName, String.toList_ofList, squeeze_spread c.isBlank_text, text]
  have hflat : c.isFlat = true → typeNameOf c.text = c.name := fun h => typeNameOf_of_isFlat h []
  have hbraces : HasBracesOnly (typeNameOf c.text) → c.isFlat = true := by
    intro h
    by_contra hnot
    obtain ⟨x, hx, hmem⟩ := angle_mem_of_not_isFlat (Bool.eq_false_iff.2 hnot) []
    rcases List.mem_pair.1 hx with rfl | rfl
    · exact h.lt_not_mem hmem
    · exact h.gt_not_mem hmem
  rw [hname, String.toList_ofList, String.ofList_inj]
  exact ⟨⟨fun h => hbraces (h ▸ c.hasBracesOnly_name), hflat⟩,
    hbraces, fun h => hflat h ▸ c.hasBracesOnly_name⟩

/-- An identifier of the given characters. -/
def identifier (s : String) (h : s.toList ≠ [] ∧ s.toList.all isNameChar = true) : Identifier :=
  ⟨s.toList, h.1, List.all_eq_true.1 h.2⟩

/-- `Outer<int>.Inner<string, List<long>>`. -/
def nestedChain : TypeChain :=
  .inner (identifier "Outer" (by decide)) [.last (identifier "int" (by decide)) []]
    (.last (identifier "Inner" (by decide))
      [.last (identifier "string" (by decide)) [],
        .last (identifier "List" (by decide)) [.last (identifier "long" (by decide)) []]])

/-- A space behind the comma. -/
def nestedGap (i : Nat) : Blank := if i = 9 then ⟨[' '], by decide⟩ else ⟨[], by decide⟩

/-- The first bracket is taken for the partner of the last one. -/
theorem typeName_nestedChain :
    String.ofList (spread nestedGap nestedChain.tokens) = "Outer<int>.Inner<string, List<long>>" ∧
      String.ofList nestedChain.name =
        "Outer\x7bSystem.Int32\x7d.Inner\x7bSystem.String,List\x7bSystem.Int64\x7d\x7d" ∧
      typeName "Outer<int>.Inner<string, List<long>>" =
        "Outer\x7bint>.Inner\x7bSystem.String,List<long\x7d\x7d" := by
  decide +kernel

end TypeChain

end ResourceAudit.Documentation
