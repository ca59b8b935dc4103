import Mathlib.Data.List.Forall2
import ResourceAudit.Glob.Search
import ResourceAudit.Proofs.Text.Fields

/-!
# ResourceAudit.Proofs.Glob.Reading

How the pattern of a path is made up of the patterns of its components.  The
tokens of a component stand in the pattern of the path as they are, with slashes
between them; the recursive wildcard takes the slash behind it, and counts once
where several follow each other (`joinTokens`, `readTokens_intercalate`).
-/

namespace ResourceAudit.Glob

open ResourceAudit.Text

/-! ## texts without recursive wildcards -/

/-- Being the text of tokens, none of which is a recursive wildcard. -/
inductive Reads : List Char → List Token → Prop
  | nil : Reads [] []
  | anyChar {s tokens} : Reads s tokens → Reads ('?' :: s) (.anyChar :: tokens)
  | anyText {s tokens} : s.head? ≠ some '*' → Reads s tokens → Reads ('*' :: s) (.anyText :: tokens)
  | bracket {s after token tokens} : takeClass s = some (token, after) → Reads after tokens →
      Reads ('[' :: s) (token :: tokens)
  | char {c s tokens} : c ≠ '?' → c ≠ '*' → c ≠ '[' → Reads s tokens →
      Reads (c :: s) (.char c :: tokens)

/-- Being a character class. -/
def Token.IsClass : Token → Prop
  | .anyOf _ | .noneOf _ => True
  | _ => False

theorem eq_append_of_drop_takeWhile {s after : List Char} {c : Char}
    (h : s.drop (s.takeWhile (· != ']')).length = c :: after) :
    s = s.takeWhile (· != ']') ++ ']' :: after := by
  induction s with
  | nil => cases h
  | cons d s ih =>
    by_cases hd : d = ']'
    · subst hd
      simp at h
      simp [h.2]
    · simp [hd] at h ⊢
      exact ih h

/-- A class is written up to the first closing bracket behind its first
character. -/
theorem exists_of_takeClass {s after : List Char} {token : Token}
    (h : takeClass s = some (token, after)) :
    ∃ first inside, ']' ∉ inside ∧
      ((s = '!' :: first :: (inside ++ ']' :: after) ∧ token = .noneOf (rangesOf (first :: inside))) ∨
        (first ≠ '!' ∧ s = first :: (inside ++ ']' :: after) ∧
          token = .anyOf (rangesOf (first :: inside)))) := by
  have hinside : ∀ rest : List Char, ']' ∉ rest.takeWhile (· != ']') := fun rest hmem => by
    simpa using List.all_eq_true.1 List.all_takeWhile _ hmem
  unfold takeClass at h
  dsimp only at h
  split at h
  · next first rest =>
    rw [Option.map_eq_some_iff] at h
    obtain ⟨⟨ranges, after'⟩, hcut, hresult⟩ := h
    split at hcut
    · next hdrop =>
      cases hcut
      cases hresult
      refine ⟨first, _, hinside rest, .inl ⟨?_, rfl⟩⟩
      rw [← eq_append_of_drop_takeWhile hdrop]
    · cases hcut
  · cases h
  · next first rest hcons hnil =>
    rw [Option.map_eq_some_iff] at h
    obtain ⟨⟨ranges, after'⟩, hcut, hresult⟩ := h
    split at hcut
    · next hdrop =>
      cases hcut
      cases hresult
      refine ⟨first, _, hinside rest, .inr ⟨?_, ?_, rfl⟩⟩
      · rintro rfl
        cases rest with
        | nil => exact hnil rfl rfl
        | cons second rest => exact hcons second rest rfl rfl
      · rw [← eq_append_of_drop_takeWhile hdrop]
    · cases hcut
  · cases h

theorem takeWhile_inside {inside : List Char} (h : ']' ∉ inside) (after : List Char) :
    (inside ++ ']' :: after).takeWhile (· != ']') = inside := by
  rw [List.takeWhile_append_of_pos (fun c hc => by rw [bne_iff_ne]; rintro rfl; exact h hc)]
  simp

theorem takeClass_noneOf {inside : List Char} (h : ']' ∉ inside) (first : Char)
    (after : List Char) :
    takeClass ('!' :: first :: (inside ++ ']' :: after)) =
      some (.noneOf (rangesOf (first :: inside)), after) := by
  simp [takeClass, takeWhile_inside h]

theorem takeClass_anyOf {inside : List Char} (h : ']' ∉ inside) {first : Char}
    (hfirst : first ≠ '!') (after : List Char) :
    takeClass (first :: (inside ++ ']' :: after)) =
      some (.anyOf (rangesOf (first :: inside)), after) := by
  simp [takeClass, takeWhile_inside h, hfirst]

theorem takeClass_append {s after : List Char} {token : Token}
    (h : takeClass s = some (token, after)) (tail : List Char) :
    takeClass (s ++ tail) = some (token, after ++ tail) := by
  obtain ⟨first, inside, hinside, ⟨rfl, rfl⟩ | ⟨hfirst, rfl, rfl⟩⟩ := exists_of_takeClass h
  · simpa using takeClass_noneOf hinside first (after ++ tail)
  · simpa using takeClass_anyOf hinside hfirst (after ++ tail)

theorem isClass_of_takeClass {s after : List Char} {token : Token}
    (h : takeClass s = some (token, after)) : token.IsClass := by
  obtain ⟨first, inside, -, ⟨-, rfl⟩ | ⟨-, -, rfl⟩⟩ := exists_of_takeClass h
  · trivial
  · trivial

theorem suffix_of_takeClass {s after : List Char} {token : Token}
    (h : takeClass s = some (token, after)) : after <:+ s := by
  obtain ⟨first, inside, -, ⟨rfl, -⟩ | ⟨-, rfl, -⟩⟩ := exists_of_takeClass h
  · exact ⟨'!' :: first :: (inside ++ [']']), by simp⟩
  · exact ⟨first :: (inside ++ [']']), by simp⟩

theorem exists_reads_cons {s t : List Char} {read out : List Token} {token : Token}
    (h : ∃ tokens, out = (token :: read).reverse ++ tokens ∧ Reads s tokens)
    (hread : ∀ tokens, Reads s tokens → Reads t (token :: tokens)) :
    ∃ tokens, out = read.reverse ++ tokens ∧ Reads t tokens := by
  obtain ⟨tokens, rfl, hs⟩ := h
  exact ⟨token :: tokens, by simp, hread tokens hs⟩

/-- The recursive wildcard is added to those read, if it is not the last of them. -/
def addDirs (read : List Token) : List Token :=
  if 1 < read.length && read.head? == some .anyDirs then read else .anyDirs :: read

theorem mem_addDirs (read : List Token) : Token.anyDirs ∈ addDirs read := by
  rw [addDirs]
  split
  · next h =>
    rw [Bool.and_eq_true, beq_iff_eq] at h
    exact List.mem_of_head? h.2
  · exact List.mem_cons_self

theorem head?_ne_of_takeWhile {s : List Char} (h : (s.takeWhile (· == '*')).length + 1 = 1) :
    s.head? ≠ some '*' := by
  cases s with
  | nil => simp
  | cons c s =>
    intro hc
    rw [List.head?_cons, Option.some.injEq] at hc
    simp [hc] at h

/-- A component that is read without a recursive wildcard. -/
theorem reads_of_readTokens {fuel position : Nat} {before : Option Char} {read out : List Token}
    {s : List Char} (h : readTokens fuel position before read s = .ok out) (hfuel : s.length ≤ fuel)
    (hslash : '/' ∉ s) (hdirs : .anyDirs ∉ out) :
    ∃ tokens, out = read.reverse ++ tokens ∧ Reads s tokens := by
  fun_induction readTokens fuel position before read s with
  | case1 position before read s =>
    obtain rfl := List.eq_nil_of_length_eq_zero (Nat.le_zero.1 hfuel)
    exact ⟨[], by simpa using (Except.ok.inj h).symm, .nil⟩
  | case2 => exact ⟨[], by simpa using (Except.ok.inj h).symm, .nil⟩
  | case3 position before read fuel rest ih =>
    rw [List.mem_cons, not_or] at hslash
    exact exists_reads_cons (ih h (Nat.le_of_succ_le_succ hfuel) hslash.2) fun _ => .anyChar
  | case5 position before read fuel rest stars after _ hstars ih =>
    rw [List.mem_cons, not_or] at hslash
    have hafter : after = rest := by simp [after, hstars]
    rw [hafter] at ih h
    exact exists_reads_cons (ih h (Nat.le_of_succ_le_succ hfuel) hslash.2)
      fun _ => .anyText (head?_ne_of_takeWhile hstars)
  | case7 position before read fuel rest stars after _ _ _ read' _ =>
    cases h
    exact absurd (List.mem_reverse.2 (mem_addDirs read)) hdirs
  | case8 position before read fuel rest stars after _ _ _ read' rest' hafter =>
    have hmem : '/' ∈ after := by simp [hafter]
    exact absurd (List.mem_cons_of_mem _ (List.mem_of_mem_drop hmem)) hslash
  | case11 position before read fuel rest token after hclass ih =>
    rw [List.mem_cons, not_or] at hslash
    have hsuffix := suffix_of_takeClass hclass
    have hlength := hsuffix.length_le
    rw [List.length_cons] at hfuel
    exact exists_reads_cons (ih h (by omega) fun hmem => hslash.2 (hsuffix.subset hmem))
      fun _ => .bracket hclass
  | case12 position before read fuel c rest h1 h2 h3 ih =>
    rw [List.mem_cons, not_or] at hslash
    exact exists_reads_cons (ih h (Nat.le_of_succ_le_succ hfuel) hslash.2) fun _ => .char h1 h2 h3
  | case4 | case6 | case9 | case10 => cases h

theorem addDirs_of_not_mem {read : List Token} (h : .anyDirs ∉ read) :
    addDirs read = .anyDirs :: read := by
  rw [addDirs, if_neg]
  rw [Bool.and_eq_true, beq_iff_eq]
  exact fun hhead => h (List.mem_of_head? hhead.2)

theorem eq_star_of_takeWhile {s : List Char} (hle : ¬ 2 < (s.takeWhile (· == '*')).length + 1)
    (hne : ¬ (s.takeWhile (· == '*')).length + 1 = 1)
    (hdrop : s.drop ((s.takeWhile (· == '*')).length + 1 - 1) = []) : s = ['*'] := by
  have hone : (s.takeWhile (· == '*')).length = 1 := by omega
  rw [hone] at hdrop
  cases s with
  | nil => cases hone
  | cons c s =>
    obtain rfl : s = [] := hdrop
    by_cases hc : c = '*'
    · rw [hc]
    · simp [hc] at hone

/-- A component with the recursive wildcard has nothing else. -/
theorem eq_of_anyDirs_mem {fuel position : Nat} {before : Option Char} {read out : List Token}
    {s : List Char} (h : readTokens fuel position before read s = .ok out)
    (hslash : '/' ∉ s) (hread : .anyDirs ∉ read) (hdirs : .anyDirs ∈ out) :
    (before = none ∨ before = some '/') ∧ s = ['*', '*'] ∧ out = (.anyDirs :: read).reverse := by
  -- behind a character other than a slash there is no recursive wildcard
  fun_induction readTokens fuel position before read s with
  | case1 | case2 =>
    cases h
    exact absurd (List.mem_reverse.1 hdirs) hread
  | case3 position before read fuel rest ih =>
    rw [List.mem_cons, not_or] at hslash
    exact absurd (ih h hslash.2 (by simpa using hread)).1 (by decide)
  | case5 position before read fuel rest stars after _ hstars ih =>
    have hafter : after = rest := by simp [after, hstars]
    rw [List.mem_cons, not_or] at hslash
    rw [hafter] at ih h
    exact absurd (ih h hslash.2 (by simpa using hread)).1 (by decide)
  | case7 position before read fuel rest stars after hle hne hbefore read' hafter =>
    cases h
    refine ⟨?_, ?_, ?_⟩
    · rw [Bool.and_eq_true, bne_iff_ne, bne_iff_ne] at hbefore
      exact Decidable.or_iff_not_not_and_not.2 hbefore
    · rw [eq_star_of_takeWhile hle hne hafter]
    · exact congrArg List.reverse (addDirs_of_not_mem hread)
  | case8 position before read fuel rest stars after _ _ _ read' rest' hafter =>
    have hmem : '/' ∈ after := by simp [hafter]
    exact absurd (List.mem_cons_of_mem _ (List.mem_of_mem_drop hmem)) hslash
  | case11 position before read fuel rest token after hclass ih =>
    rw [List.mem_cons, not_or] at hslash
    have hsuffix := suffix_of_takeClass hclass
    have htoken : token ≠ .anyDirs := by
      rintro rfl
      exact isClass_of_takeClass hclass
    have hread' : .anyDirs ∉ token :: read := by
      rw [List.mem_cons, not_or]
      exact ⟨htoken.symm, hread⟩
    exact absurd (ih h (fun hmem => hslash.2 (hsuffix.subset hmem)) hread').1 (by decide)
  | case12 position before read fuel c rest h1 h2 h3 ih =>
    rw [List.mem_cons, not_or] at hslash
    rcases (ih h hslash.2 (by simpa using hread)).1 with hbefore | hbefore
    · cases hbefore
    · exact absurd (Option.some.inj hbefore).symm hslash.1
  | case4 | case6 | case9 | case10 => cases h

section Steps

variable (fuel position : Nat) (before : Option Char) (read : List Token)

theorem readTokens_anyText {s : List Char} (h : s.head? ≠ some '*') :
    readTokens (fuel + 1) position before read ('*' :: s) =
      readTokens fuel (position + 1) (some '*') (.anyText :: read) s := by
  have hstars : s.takeWhile (· == '*') = [] := by
    cases s with
    | nil => rfl
    | cons c s => exact List.takeWhile_cons_of_neg (by simpa using h)
  rw [readTokens, hstars]
  rfl

theorem readTokens_bracket {s after : List Char} {token : Token}
    (h : takeClass s = some (token, after)) :
    readTokens (fuel + 1) position before read ('[' :: s) =
      readTokens fuel (position + 1 + s.length - after.length) (some ']') (token :: read) after := by
  rw [readTokens, h]

theorem readTokens_char {c : Char} (h1 : c ≠ '?') (h2 : c ≠ '*') (h3 : c ≠ '[') (s : List Char) :
    readTokens (fuel + 1) position before read (c :: s) =
      readTokens fuel (position + 1) (some c) (.char c :: read) s := by
  rw [readTokens]
  · exact h1
  · exact h2
  · exact h3

/-- The recursive wildcard takes the slash behind it. -/
theorem readTokens_anyDirs (s : List Char) :
    readTokens (fuel + 1) position (some '/') read ('*' :: '*' :: '/' :: s) =
      readTokens fuel (position + 3) (some '/') (addDirs read) s := by
  simp [readTokens, addDirs]

theorem readTokens_anyDirs_end :
    readTokens (fuel + 1) position (some '/') read ['*', '*'] = .ok (addDirs read).reverse := by
  simp [readTokens, addDirs]

end Steps

/-- Reading goes on behind a component that has been read. -/
theorem Reads.readTokens_append {s : List Char} {tokens : List Token} (h : Reads s tokens)
    {tail : List Char} (htail : tail = [] ∨ tail.head? = some '/') {fuel : Nat}
    (hfuel : (s ++ tail).length ≤ fuel) (position : Nat) (before : Option Char) (read : List Token) :
    ∃ fuel' position' before', tail.length ≤ fuel' ∧
      readTokens fuel position before read (s ++ tail) =
        readTokens fuel' position' before' (tokens.reverse ++ read) tail := by
  induction h generalizing fuel position before read with
  | nil => exact ⟨fuel, position, before, hfuel, rfl⟩
  | @anyChar s tokens hs ih =>
    obtain ⟨fuel, rfl⟩ := Nat.exists_eq_add_of_le' (Nat.one_le_of_lt hfuel)
    rw [List.reverse_cons, List.append_assoc]
    exact ih (Nat.le_of_succ_le_succ hfuel) _ _ _
  | @anyText s tokens hhead hs ih =>
    obtain ⟨fuel, rfl⟩ := Nat.exists_eq_add_of_le' (Nat.one_le_of_lt hfuel)
    have hhead' : (s ++ tail).head? ≠ some '*' := by
      cases s with
      | nil => rcases htail with rfl | htail <;> simp_all
      | cons c s => exact hhead
    rw [List.cons_append, readTokens_anyText _ _ _ _ hhead', List.reverse_cons, List.append_assoc]
    exact ih (Nat.le_of_succ_le_succ hfuel) _ _ _
  | @bracket s after token tokens hclass hs ih =>
    obtain ⟨fuel, rfl⟩ := Nat.exists_eq_add_of_le' (Nat.one_le_of_lt hfuel)
    have hlength := (suffix_of_takeClass hclass).length_le
    rw [List.cons_append, readTokens_bracket _ _ _ _ (takeClass_append hclass tail),
      List.reverse_cons, List.append_assoc]
    refine ih ?_ _ _ _
    simp only [List.length_append, List.length_cons] at hfuel ⊢
    omega
  | @char c s tokens h1 h2 h3 hs ih =>
    obtain ⟨fuel, rfl⟩ := Nat.exists_eq_add_of_le' (Nat.one_le_of_lt hfuel)
    rw [List.cons_append, readTokens_char _ _ _ _ h1 h2 h3, List.reverse_cons, List.append_assoc]
    exact ih (Nat.le_of_succ_le_succ hfuel) _ _ _

/-! ## whole paths -/

/-- Being the pattern of a component. -/
inductive Spells : List Char → Pattern → Prop
  | plain {s tokens} : Reads s tokens → Spells s ⟨tokens⟩
  | dirs : Spells ['*', '*'] ⟨[.anyDirs]⟩

theorem Reads.anyDirs_not_mem {s : List Char} {tokens : List Token} (h : Reads s tokens) :
    .anyDirs ∉ tokens := by
  induction h with
  | nil => exact List.not_mem_nil
  | anyChar _ ih => simpa using ih
  | anyText _ _ ih => simpa using ih
  | char _ _ _ _ ih => simpa using ih
  | bracket hclass _ ih =>
    rw [List.mem_cons, not_or]
    refine ⟨?_, ih⟩
    rintro rfl
    exact isClass_of_takeClass hclass

theorem Reads.mem_of_char_mem {s : List Char} {tokens : List Token} (h : Reads s tokens) {c : Char}
    (hc : .char c ∈ tokens) : c ∈ s := by
  induction h with
  | nil => cases hc
  | anyChar _ ih => exact List.mem_cons_of_mem _ (ih (by simpa using hc))
  | anyText _ _ ih => exact List.mem_cons_of_mem _ (ih (by simpa using hc))
  | bracket hclass _ ih =>
    rcases List.mem_cons.1 hc with rfl | hc
    · exact (isClass_of_takeClass hclass).elim
    · exact List.mem_cons_of_mem _ ((suffix_of_takeClass hclass).subset (ih hc))
  | char _ _ _ _ ih =>
    rcases List.mem_cons.1 hc with hc | hc
    · rw [Token.char.inj hc]
      exact List.mem_cons_self
    · exact List.mem_cons_of_mem _ (ih hc)

theorem Spells.isRecursive_plain {s : List Char} {tokens : List Token} (h : Reads s tokens) :
    Pattern.isRecursive ⟨tokens⟩ = false := by
  rw [Pattern.isRecursive, List.contains_eq_mem, decide_eq_false_iff_not]
  exact h.anyDirs_not_mem

theorem spells_of_ofText {piece : List Char} {p : Pattern} (hslash : '/' ∉ piece)
    (h : Pattern.ofText (.ofList piece) = .ok p) : Spells piece p := by
  rw [Pattern.ofText, String.toList_ofList, String.length_ofList] at h
  cases hread : readTokens piece.length 0 none [] piece with
  | error fault =>
    rw [hread] at h
    cases h
  | ok tokens =>
    rw [hread] at h
    obtain rfl : ⟨tokens⟩ = p := Except.ok.inj h
    by_cases hdirs : Token.anyDirs ∈ tokens
    · obtain ⟨-, rfl, rfl⟩ := eq_of_anyDirs_mem hread hslash List.not_mem_nil hdirs
      exact .dirs
    · obtain ⟨tokens, rfl, hreads⟩ := reads_of_readTokens hread (Nat.le_refl _) hslash hdirs
      exact .plain hreads

/-- The tokens of a path that has the given patterns as its components, behind a
recursive wildcard or not. -/
def joinTokens : Bool → List Pattern → List Token
  | _, [] => []
  | behindDirs, p :: rest =>
    if p.isRecursive then (if behindDirs then [] else [.anyDirs]) ++ joinTokens true rest
    else p.tokens ++ (if rest.isEmpty then [] else [.char '/']) ++ joinTokens false rest

theorem joinTokens_plain {s : List Char} {tokens : List Token} (h : Reads s tokens)
    (behindDirs : Bool) (rest : List Pattern) :
    joinTokens behindDirs (⟨tokens⟩ :: rest) =
      tokens ++ (if rest.isEmpty then [] else [.char '/']) ++ joinTokens false rest := by
  rw [joinTokens, Spells.isRecursive_plain h, if_neg Bool.false_ne_true]

theorem joinTokens_dirs (behindDirs : Bool) (rest : List Pattern) :
    joinTokens behindDirs (⟨[.anyDirs]⟩ :: rest) =
      (if behindDirs then [] else [.anyDirs]) ++ joinTokens true rest := rfl

theorem readTokens_nil (fuel position : Nat) (before : Option Char) (read : List Token) :
    readTokens fuel position before read [] = .ok read.reverse := by
  cases fuel <;> rfl

theorem addDirs_eq {read : List Token} (h : read.head? = some .anyDirs → 1 < read.length) :
    addDirs read = if read.head? == some .anyDirs then read else .anyDirs :: read := by
  rw [addDirs]
  by_cases hhead : read.head? = some .anyDirs
  · simp [hhead, h hhead]
  · simp [hhead]

theorem reverse_addDirs {read : List Token} (h : read.head? = some .anyDirs → 1 < read.length) :
    (addDirs read).reverse =
      read.reverse ++ if read.head? == some .anyDirs then [] else [.anyDirs] := by
  rw [addDirs_eq h]
  split <;> simp

theorem head?_addDirs (read : List Token) : (addDirs read).head? = some .anyDirs := by
  rw [addDirs]
  split
  · next h =>
    rw [Bool.and_eq_true, beq_iff_eq] at h
    exact h.2
  · rfl

theorem one_lt_length_addDirs {read : List Token} (h : read ≠ []) : 1 < (addDirs read).length := by
  have hpos := List.length_pos_iff.2 h
  rw [addDirs]
  split
  · next hlong => exact of_decide_eq_true (Bool.and_eq_true_iff.1 hlong).1
  · rw [List.length_cons]
    omega

/-- The tokens of a path are those of its components. -/
theorem readTokens_intercalate {pieces : List (List Char)} {patterns : List Pattern}
    (h : List.Forall₂ Spells pieces patterns) (hne : pieces ≠ []) {fuel : Nat}
    (hfuel : (['/'].intercalate pieces).length ≤ fuel) (position : Nat) {read : List Token}
    (hread : read ≠ []) (hhead : read.head? = some .anyDirs → 1 < read.length) :
    readTokens fuel position (some '/') read (['/'].intercalate pieces) =
      .ok (read.reverse ++ joinTokens (read.head? == some .anyDirs) patterns) := by
  induction h generalizing fuel position read with
  | nil => exact absurd rfl hne
  | @cons piece p pieces patterns hpiece hrest ih =>
    cases hrest with
    | nil =>
      rw [List.intercalate_singleton] at hfuel ⊢
      cases hpiece with
      | plain hreads =>
        rw [← List.append_nil piece] at hfuel ⊢
        obtain ⟨fuel', position', before', -, hreadTokens⟩ :=
          hreads.readTokens_append (.inl rfl) hfuel position (some '/') read
        rw [hreadTokens, readTokens_nil, joinTokens_plain hreads]
        simp [joinTokens]
      | dirs =>
        obtain ⟨fuel, rfl⟩ := Nat.exists_eq_add_of_le' (Nat.one_le_of_lt hfuel)
        rw [readTokens_anyDirs_end, reverse_addDirs hhead, joinTokens_dirs]
        simp [joinTokens]
    | @cons next q pieces patterns hnext hrest =>
      rw [List.intercalate_cons_cons, List.append_assoc, List.singleton_append] at hfuel ⊢
      cases hpiece with
      | plain hreads =>
        obtain ⟨fuel', position', before', hfuel', hreadTokens⟩ :=
          hreads.readTokens_append (.inr rfl) hfuel position (some '/') read
        obtain ⟨fuel', rfl⟩ := Nat.exists_eq_add_of_le' (Nat.one_le_of_lt hfuel')
        rw [hreadTokens, readTokens_char _ _ _ _ (by decide) (by decide) (by decide),
          ih (by simp) (Nat.le_of_succ_le_succ hfuel') _ (by simp) (by simp),
          joinTokens_plain hreads]
        have hhead' : (Token.char '/' == Token.anyDirs) = false := rfl
        simp [hhead']
      | dirs =>
        obtain ⟨fuel, rfl⟩ := Nat.exists_eq_add_of_le' (Nat.one_le_of_lt hfuel)
        have hrestFuel : (['/'].intercalate (next :: pieces)).length ≤ fuel := by
          simp only [List.length_append, List.length_cons] at hfuel
          omega
        rw [List.cons_append, List.cons_append, List.nil_append, readTokens_anyDirs,
          ih (by simp) hrestFuel _ (List.ne_nil_of_mem (mem_addDirs read))
            fun _ => one_lt_length_addDirs hread,
          joinTokens_dirs, reverse_addDirs hhead, head?_addDirs]
        simp

theorem forall₂_spells_of_mapM {pieces : List (List Char)} {patterns : List Pattern}
    (hslash : ∀ piece ∈ pieces, '/' ∉ piece)
    (h : pieces.mapM (fun piece => Pattern.ofText (.ofList piece)) = .ok patterns) :
    List.Forall₂ Spells pieces patterns := by
  induction pieces generalizing patterns with
  | nil =>
    cases h
    exact .nil
  | cons piece pieces ih =>
    rw [List.forall_mem_cons] at hslash
    rw [List.mapM_cons] at h
    cases hfirst : Pattern.ofText (.ofList piece) with
    | error fault =>
      rw [hfirst] at h
      cases h
    | ok p =>
      cases hrest : pieces.mapM fun piece => Pattern.ofText (.ofList piece) with
      | error fault =>
        rw [hfirst, hrest] at h
        cases h
      | ok others =>
        rw [hfirst, hrest] at h
        cases h
        exact .cons (spells_of_ofText hslash.1 hfirst) (ih hslash.2 hrest)

/-- The pieces of an absolute path are its components. -/
theorem filter_fields_intercalate {pieces : List (List Char)}
    (h : ∀ piece ∈ pieces, '/' ∉ piece ∧ piece ≠ []) :
    (fields (· == '/') ('/' :: ['/'].intercalate pieces)).filter (!·.isEmpty) = pieces := by
  rw [fields_cons_self, List.filter_cons_of_neg (by simp)]
  cases pieces with
  | nil => rfl
  | cons piece pieces =>
    rw [fields_intercalate (by simp) fun piece hpiece => (h piece hpiece).1, List.filter_eq_self]
    exact fun piece hpiece => by simpa using (h piece hpiece).2

/-- The patterns of the components of an absolute path, and its own pattern. -/
theorem ofText_of_componentPatterns {pieces : List (List Char)} {patterns : List Pattern}
    (hpieces : ∀ piece ∈ pieces, '/' ∉ piece ∧ piece ≠ [])
    (h : componentPatterns (.ofList ('/' :: ['/'].intercalate pieces)) = .ok patterns) :
    List.Forall₂ Spells pieces patterns ∧
      Pattern.ofText (.ofList ('/' :: ['/'].intercalate pieces)) =
        .ok ⟨.char '/' :: joinTokens false patterns⟩ := by
  have hmapM : pieces.mapM (fun piece => Pattern.ofText (.ofList piece)) = .ok patterns := by
    rw [componentPatterns, String.toList_ofList, filter_fields_intercalate hpieces] at h
    cases hwhole : Pattern.ofText (.ofList ('/' :: ['/'].intercalate pieces)) with
    | error fault =>
      rw [hwhole] at h
      cases h
    | ok pattern =>
      rw [hwhole] at h
      exact h
  have hspells := forall₂_spells_of_mapM (fun piece hpiece => (hpieces piece hpiece).1) hmapM
  refine ⟨hspells, ?_⟩
  rw [Pattern.ofText, String.length_ofList, String.toList_ofList, List.length_cons,
    readTokens_char _ _ _ _ (by decide) (by decide) (by decide)]
  cases pieces with
  | nil =>
    cases hspells
    rw [List.intercalate_nil, readTokens_nil]
    rfl
  | cons piece pieces =>
    rw [readTokens_intercalate hspells (by simp) (Nat.le_refl _) _ (by simp) (by simp)]
    rfl

end ResourceAudit.Glob
