import ResourceAudit.Proofs.Glob.Matching
import ResourceAudit.Proofs.Glob.Reading

/-!
# ResourceAudit.Proofs.Glob.Naming

What the patterns of components name together (`Names`): each names one
component, and a recursive one any number of directories.  The pattern of the
whole path matches what they name (`Names.matches_joinTokens`).  It matches
more, since its wildcards do not stop at slashes; but without recursive
wildcards only among the paths of another depth (`names_of_matches`).
-/

namespace ResourceAudit.Glob

/-- Being the names that patterns of components stand for, one after the other.
A recursive pattern may stand for none, unless it is the last one. -/
inductive Names : List Pattern → List String → Prop
  | nil : Names [] []
  | name {p rest name names} : p.isRecursive = false → p.matches name = true → Names rest names →
      Names (p :: rest) (name :: names)
  | last {p name} : p.isRecursive = true → Names [p] [name]
  | stop {p rest names} : p.isRecursive = true → rest ≠ [] → Names rest names →
      Names (p :: rest) names
  | enter {p rest name names} : p.isRecursive = true → Names (p :: rest) names →
      Names (p :: rest) (name :: names)

/-- The text of names with slashes between them. -/
def textOf (names : List String) : List Char := ['/'].intercalate (names.map String.toList)

theorem textOf_cons {names : List String} (h : names ≠ []) (name : String) :
    textOf (name :: names) = name.toList ++ '/' :: textOf names := by
  obtain ⟨next, names, rfl⟩ := List.exists_cons_of_ne_nil h
  rw [textOf, List.map_cons, List.map_cons, List.intercalate_cons_cons, List.append_assoc]
  rfl

theorem Names.ne_nil {patterns : List Pattern} {names : List String} (h : Names patterns names)
    (hne : patterns ≠ []) : names ≠ [] := by
  induction h with
  | nil => exact absurd rfl hne
  | name _ _ _ _ => exact List.cons_ne_nil _ _
  | last _ => exact List.cons_ne_nil _ _
  | stop _ hrest _ ih => exact ih hrest
  | enter _ _ _ => exact List.cons_ne_nil _ _

theorem not_mem_of_isRecursive {p : Pattern} (h : p.isRecursive = false) : .anyDirs ∉ p.tokens := by
  rwa [Pattern.isRecursive, List.contains_eq_mem, decide_eq_false_iff_not] at h

/-! ## from the components to the path -/

theorem Matches.append {tokens tokens' : List Token} (hdirs : .anyDirs ∉ tokens) {s t : List Char}
    (h : Matches tokens s) (h' : Matches tokens' t) : Matches (tokens ++ tokens') (s ++ t) := by
  induction tokens generalizing s with
  | nil =>
    obtain rfl : s = [] := h
    exact h'
  | cons token rest ih =>
    rw [List.mem_cons, not_or] at hdirs
    by_cases htext : token = .anyText
    · subst htext
      obtain ⟨u, ⟨front, rfl⟩, hu⟩ := h
      exact ⟨u ++ t, ⟨front, (List.append_assoc _ _ _).symm⟩, ih hdirs.2 hu⟩
    · rw [List.cons_append, matches_token htext (Ne.symm hdirs.1)]
      obtain ⟨c, u, rfl, hc, hu⟩ := (matches_token htext (Ne.symm hdirs.1)).1 h
      exact ⟨c, u ++ t, rfl, hc, ih hdirs.2 hu⟩

theorem matches_tokens {p : Pattern} {name : String} (h : p.matches name = true) :
    Matches p.tokens name.toList :=
  matches_of_matchTokens (eq_of_beq h)

theorem joinTokens_of_plain {p : Pattern} (h : p.isRecursive = false) (behindDirs : Bool)
    (rest : List Pattern) :
    joinTokens behindDirs (p :: rest) =
      p.tokens ++ (if rest.isEmpty then [] else [.char '/']) ++ joinTokens false rest := by
  rw [joinTokens, h, if_neg Bool.false_ne_true]

theorem joinTokens_of_recursive {p : Pattern} (h : p.isRecursive = true) (behindDirs : Bool)
    (rest : List Pattern) :
    joinTokens behindDirs (p :: rest) =
      (if behindDirs then [] else [.anyDirs]) ++ joinTokens true rest := by
  rw [joinTokens, h, if_pos rfl]

theorem mem_starts_textOf {names : List String} (hne : names ≠ []) (name : String) {u : List Char}
    (h : u ∈ starts (textOf names)) : u ∈ starts (textOf (name :: names)) := by
  refine mem_starts_trans (mem_starts.2 (.inr (.inl ?_))) h
  rw [textOf_cons hne]
  exact List.suffix_append _ _

/-- What patterns name is matched by their tokens, and behind a recursive
wildcard by those from some directory on. -/
theorem Names.matches_joinTokens {patterns : List Pattern} {names : List String}
    (h : Names patterns names) :
    Matches (joinTokens false patterns) (textOf names) ∧
      ∃ u ∈ starts (textOf names), Matches (joinTokens true patterns) u := by
  induction h with
  | nil => exact ⟨rfl, [], by decide, rfl⟩
  | @name p rest name names hp hname hrest ih =>
    rw [joinTokens_of_plain hp, joinTokens_of_plain hp]
    have hmatches : Matches (p.tokens ++ (if rest.isEmpty then [] else [.char '/']) ++
        joinTokens false rest) (textOf (name :: names)) := by
      cases rest with
      | nil =>
        cases hrest
        simpa [joinTokens, textOf] using matches_tokens hname
      | cons q rest =>
        have hnames := hrest.ne_nil (List.cons_ne_nil q rest)
        rw [textOf_cons hnames, List.append_assoc]
        refine (matches_tokens hname).append (not_mem_of_isRecursive hp) ?_
        exact ⟨'/', _, rfl, rfl, ih.1⟩
    exact ⟨hmatches, _, mem_starts.2 (.inl rfl), hmatches⟩
  | @last p name hp =>
    rw [joinTokens_of_recursive hp, joinTokens_of_recursive hp]
    have hend : [] ∈ starts (textOf [name]) := mem_starts.2 (.inr (.inr rfl))
    exact ⟨⟨[], hend, rfl⟩, [], hend, rfl⟩
  | stop hp _ _ ih =>
    rw [joinTokens_of_recursive hp, joinTokens_of_recursive hp]
    obtain ⟨-, hbehind⟩ := ih
    exact ⟨hbehind, hbehind⟩
  | @enter p rest name names hp hnames ih =>
    have hne := hnames.ne_nil (List.cons_ne_nil p rest)
    obtain ⟨-, u, hu, hmatches⟩ := ih
    rw [joinTokens_of_recursive hp] at hmatches
    rw [joinTokens_of_recursive hp, joinTokens_of_recursive hp]
    have hbehind := mem_starts_textOf hne name hu
    exact ⟨⟨u, hbehind, hmatches⟩, u, hbehind, hmatches⟩

/-! ## from the path to the components -/

theorem Matches.split {tokens tokens' : List Token} (hdirs : .anyDirs ∉ tokens) {s : List Char}
    (h : Matches (tokens ++ tokens') s) :
    ∃ t u, s = t ++ u ∧ Matches tokens t ∧ Matches tokens' u := by
  induction tokens generalizing s with
  | nil => exact ⟨[], s, rfl, rfl, h⟩
  | cons token rest ih =>
    rw [List.mem_cons, not_or] at hdirs
    by_cases htext : token = .anyText
    · subst htext
      obtain ⟨v, ⟨front, rfl⟩, hv⟩ := h
      obtain ⟨t, u, rfl, ht, hu⟩ := ih hdirs.2 hv
      exact ⟨front ++ t, u, (List.append_assoc _ _ _).symm, ⟨t, ⟨front, rfl⟩, ht⟩, hu⟩
    · rw [List.cons_append, matches_token htext (Ne.symm hdirs.1)] at h
      obtain ⟨c, v, rfl, hc, hv⟩ := h
      obtain ⟨t, u, rfl, ht, hu⟩ := ih hdirs.2 hv
      refine ⟨c :: t, u, rfl, ?_, hu⟩
      exact (matches_token htext (Ne.symm hdirs.1)).2 ⟨c, t, rfl, hc, ht⟩

/-- Every slash among the tokens takes one of the text. -/
theorem Matches.count_le {tokens : List Token} (hdirs : .anyDirs ∉ tokens) {s : List Char}
    (h : Matches tokens s) : tokens.count (.char '/') ≤ s.count '/' := by
  induction tokens generalizing s with
  | nil => simp
  | cons token rest ih =>
    rw [List.mem_cons, not_or] at hdirs
    by_cases htext : token = .anyText
    · subst htext
      obtain ⟨u, hu, hmatches⟩ := h
      have hle := ih hdirs.2 hmatches
      have hsub := hu.sublist.count_le '/'
      simp only [List.count_cons]
      exact Nat.le_trans hle hsub
    · obtain ⟨c, u, rfl, hc, hu⟩ := (matches_token htext (Ne.symm hdirs.1)).1 h
      have hle := ih hdirs.2 hu
      by_cases hslash : token = .char '/'
      · subst hslash
        obtain rfl : '/' = c := eq_of_beq hc
        simpa using hle
      · rw [List.count_cons_of_ne hslash, List.count_cons]
        omega

/-- Being the pattern of a component without a recursive wildcard. -/
structure IsPlain (p : Pattern) : Prop where
  plain : p.isRecursive = false
  slash : .char '/' ∉ p.tokens

theorem Spells.isPlain {s : List Char} {p : Pattern} (h : Spells s p) (hslash : '/' ∉ s)
    (hplain : p.isRecursive = false) : IsPlain p := by
  cases h with
  | plain hreads => exact ⟨hplain, fun hmem => hslash (hreads.mem_of_char_mem hmem)⟩
  | dirs => cases hplain

theorem forall_isPlain_of_spells {pieces : List (List Char)} {patterns : List Pattern}
    (h : List.Forall₂ Spells pieces patterns) (hslash : ∀ piece ∈ pieces, '/' ∉ piece)
    (hplain : ∀ p ∈ patterns, p.isRecursive = false) : ∀ p ∈ patterns, IsPlain p := by
  induction h with
  | nil => exact List.forall_mem_nil _
  | cons hpiece _ ih =>
    rw [List.forall_mem_cons] at hslash hplain ⊢
    exact ⟨hpiece.isPlain hslash.1 hplain.1, ih hslash.2 hplain.2⟩

/-- Each plain pattern names one component. -/
theorem Names.length_eq {patterns : List Pattern} {names : List String} (h : Names patterns names)
    (hplain : ∀ p ∈ patterns, p.isRecursive = false) : names.length = patterns.length := by
  induction h with
  | nil => rfl
  | name _ _ _ ih =>
    rw [List.forall_mem_cons] at hplain
    rw [List.length_cons, List.length_cons, ih hplain.2]
  | last hp | stop hp _ _ _ | enter hp _ _ =>
    rw [hplain _ List.mem_cons_self] at hp
    cases hp

theorem count_joinTokens {patterns : List Pattern} (h : ∀ p ∈ patterns, IsPlain p) :
    (joinTokens false patterns).count (.char '/') = patterns.length - 1 := by
  induction patterns with
  | nil => rfl
  | cons p rest ih =>
    rw [List.forall_mem_cons] at h
    rw [joinTokens_of_plain h.1.plain, List.count_append, List.count_append, ih h.2,
      List.count_eq_zero.2 h.1.slash]
    cases rest with
    | nil => rfl
    | cons q rest =>
      simp
      omega

theorem anyDirs_not_mem_joinTokens {patterns : List Pattern} (h : ∀ p ∈ patterns, IsPlain p) :
    .anyDirs ∉ joinTokens false patterns := by
  induction patterns with
  | nil => exact List.not_mem_nil
  | cons p rest ih =>
    rw [List.forall_mem_cons] at h
    rw [joinTokens_of_plain h.1.plain, List.mem_append, List.mem_append, not_or, not_or]
    refine ⟨⟨not_mem_of_isRecursive h.1.plain, ?_⟩, ih h.2⟩
    split <;> simp

theorem count_textOf {names : List String} (h : ∀ name ∈ names, '/' ∉ name.toList) :
    (textOf names).count '/' = names.length - 1 := by
  induction names with
  | nil => rfl
  | cons name names ih =>
    rw [List.forall_mem_cons] at h
    have hname := List.count_eq_zero.2 h.1
    cases names with
    | nil => simpa [textOf] using hname
    | cons next names =>
      rw [textOf_cons (List.cons_ne_nil next names), List.count_append, List.count_cons_self,
        ih h.2, hname, List.length_cons]
      simp

theorem dirsAllowed_of_not_mem {tokens : List Token} (h : .anyDirs ∉ tokens) (allowed : Bool) :
    dirsAllowed allowed tokens = true := by
  induction tokens generalizing allowed with
  | nil => rfl
  | cons token rest ih =>
    rw [List.mem_cons, not_or] at h
    rw [dirsAllowed_token (Ne.symm h.1)]
    exact ih h.2 _

theorem dirsAllowed_append_slash {tokens : List Token} (h : .anyDirs ∉ tokens) (allowed : Bool)
    (rest : List Token) :
    dirsAllowed allowed (tokens ++ .char '/' :: rest) = dirsAllowed true rest := by
  induction tokens generalizing allowed with
  | nil => rfl
  | cons token tokens ih =>
    rw [List.mem_cons, not_or] at h
    rw [List.cons_append, dirsAllowed_token (Ne.symm h.1), ih h.2]

theorem dirsAllowed_joinTokens (behindDirs : Bool) (patterns : List Pattern) :
    dirsAllowed true (joinTokens behindDirs patterns) = true := by
  induction patterns generalizing behindDirs with
  | nil => rfl
  | cons p rest ih =>
    cases hp : p.isRecursive with
    | true =>
      rw [joinTokens_of_recursive hp]
      cases behindDirs with
      | true => exact ih true
      | false => exact ih true
    | false =>
      rw [joinTokens_of_plain hp]
      cases rest with
      | nil =>
        refine dirsAllowed_of_not_mem ?_ true
        simpa [joinTokens] using not_mem_of_isRecursive hp
      | cons q rest =>
        rw [List.append_assoc]
        exact (dirsAllowed_append_slash (not_mem_of_isRecursive hp) true _).trans (ih false)

theorem IsPlain.matches {p : Pattern} (h : IsPlain p) {name : String}
    (hname : Matches p.tokens name.toList) : p.matches name = true :=
  beq_iff_eq.2 ((matchTokens_eq_accepted
    (dirsAllowed_of_not_mem (not_mem_of_isRecursive h.plain) true)).2 hname)

/-- Without recursive wildcards, a path of the same depth is matched component
by component. -/
theorem names_of_matches {patterns : List Pattern} {names : List String}
    (hpatterns : ∀ p ∈ patterns, IsPlain p) (hnames : ∀ name ∈ names, '/' ∉ name.toList)
    (hlength : patterns.length = names.length)
    (h : Matches (joinTokens false patterns) (textOf names)) : Names patterns names := by
  induction patterns generalizing names with
  | nil =>
    obtain rfl := List.eq_nil_of_length_eq_zero hlength.symm
    exact .nil
  | cons p rest ih =>
    obtain ⟨name, names, rfl⟩ := List.exists_cons_of_length_eq_add_one hlength.symm
    have hcount := count_textOf hnames
    rw [List.forall_mem_cons] at hpatterns hnames
    have hlength' : rest.length = names.length := Nat.succ.inj hlength
    rw [joinTokens_of_plain hpatterns.1.plain] at h
    cases rest with
    | nil =>
      obtain rfl := List.eq_nil_of_length_eq_zero hlength'.symm
      refine .name hpatterns.1.plain (hpatterns.1.matches ?_) .nil
      simpa [joinTokens, textOf] using h
    | cons q rest =>
      have hne : names ≠ [] := List.ne_nil_of_length_pos (by rw [← hlength']; simp)
      rw [List.append_assoc] at h
      obtain ⟨s, u, hsplit, hs, c, t, rfl, hc, ht⟩ :=
        h.split (not_mem_of_isRecursive hpatterns.1.plain)
      obtain rfl : '/' = c := eq_of_beq hc
      -- the slashes that are left are all needed behind this one
      have hle := ht.count_le (anyDirs_not_mem_joinTokens hpatterns.2)
      have hslash : '/' ∉ s := by
        rw [hsplit, List.count_append, List.count_cons_self] at hcount
        rw [count_joinTokens hpatterns.2] at hle
        rw [← List.count_eq_zero]
        simp only [List.length_cons] at hle hcount hlength'
        omega
      rw [textOf_cons hne] at hsplit
      have hfields := congrArg (Text.fields (· == '/')) hsplit
      rw [Text.fields_append hnames.1, Text.fields_append hslash] at hfields
      obtain rfl := (List.cons.inj hfields).1
      obtain rfl := (List.cons.inj (List.append_cancel_left hsplit)).2
      exact .name hpatterns.1.plain (hpatterns.1.matches hs) (ih hpatterns.2 hnames.2 hlength' ht)

end ResourceAudit.Glob
