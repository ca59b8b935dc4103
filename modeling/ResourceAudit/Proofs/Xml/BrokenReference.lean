import ResourceAudit.Proofs.Xml.Spelling
import Mathlib.Data.List.TakeWhile

/-!
# ResourceAudit.Proofs.Xml.BrokenReference

Text that cannot be expanded.  Whatever is read as a reference is one of the
spellings of its character (`exists_spelling_of_resolve`), so a text cannot be
expanded just if it has an ampersand with which no spelling begins
(`toOption_expand_eq_none_iff`): one that is left as it is, or one in front of a
name or a number that stands for no character.
-/

namespace ResourceAudit.Xml

open ResourceAudit.Text

/-! ## references that are read -/

theorem foldlM_digits_of_readDigits {base value n : Nat} {digits : List Char}
    (h : readDigits base value digits = .ok n) :
    digits.foldlM (fun value c => (digitValue? base c).map (value * base + ·)) value = some n := by
  induction digits generalizing value with
  | nil =>
    rw [readDigits, Except.ok.injEq] at h
    rw [List.foldlM_nil, h]
    rfl
  | cons c rest ih =>
    rw [readDigits] at h
    split at h
    · cases h
    · next digit hdigit =>
      split at h
      · rw [List.foldlM_cons, hdigit]
        exact ih h
      · cases h

/-- Digits are read as the number that they name. -/
theorem digitsValue?_of_readCode {base n : Nat} {digits : List Char}
    (h : readCode base digits = .ok n) : digitsValue? base digits = some n := by
  unfold readCode at h
  split at h
  · cases h
  · cases h
  · cases h
  · cases hread : readDigits base 0 digits with
    | error fault =>
      rw [hread] at h
      cases h
    | ok code =>
      rw [hread] at h
      cases h
      exact foldlM_digits_of_readDigits hread

/-- A number is read as the character that has it, and zero as none. -/
theorem digitsValue?_of_readCharacter {base : Nat} {digits : List Char} {c : Char}
    (h : (do
      let code ← readCode base digits
      if code = 0 then throw .null
      if code.isValidChar then return Char.ofNat code else throw (.noCodepoint code)) =
        Except.ok c) :
    digitsValue? base digits = some c.toNat ∧ c.toNat ≠ 0 := by
  cases hcode : readCode base digits with
  | error fault =>
    rw [hcode] at h
    cases h
  | ok code =>
    rw [hcode] at h
    by_cases hzero : code = 0
    · subst hzero
      cases h
    · by_cases hvalid : code.isValidChar
      · have hc : c = Char.ofNat code := by
          simpa [bind, Except.bind, hzero, hvalid, pure, Except.pure, eq_comm] using h
        have htoNat : c.toNat = code := by
          rw [hc, Char.ofNat, dif_pos hvalid]
          rfl
        rw [htoNat]
        exact ⟨digitsValue?_of_readCode hcode, hzero⟩
      · simp [bind, Except.bind, hzero, hvalid, throw, throwThe, MonadExceptOf.throw] at h

theorem exists_entity_of_entity? {name : List Char} {c : Char} (h : entity? name = some c) :
    ∃ e : Entity, e.name = name ∧ e.char = c := by
  have hname : ∀ {s : String}, String.ofList name = s → s.toList = name := fun hs => by
    rw [← hs, String.toList_ofList]
  unfold entity? at h
  split at h
  · next hs => exact ⟨.lt, hname hs, Option.some.inj h⟩
  · next hs => exact ⟨.gt, hname hs, Option.some.inj h⟩
  · next hs => exact ⟨.amp, hname hs, Option.some.inj h⟩
  · next hs => exact ⟨.apos, hname hs, Option.some.inj h⟩
  · next hs => exact ⟨.quot, hname hs, Option.some.inj h⟩
  · cases h

/-- What is read behind a number sign is a spelling of its character. -/
theorem exists_spelling_of_readCharacter {number : List Char} {c : Char}
    (h : readCharacter number = .ok c) :
    ∃ s : Spelling, s.reference? = some ('#' :: number) ∧ s.char = c := by
  unfold readCharacter at h
  split at h
  · next digits => exact ⟨.hexadecimal digits c (digitsValue?_of_readCharacter h), rfl, rfl⟩
  · exact ⟨.decimal number c (digitsValue?_of_readCharacter h), rfl, rfl⟩

/-- Whatever is read as a reference is a spelling of its character. -/
theorem exists_spelling_of_resolve {start : Nat} {name : List Char} {c : Char}
    (h : resolve start name = .ok c) : ∃ s : Spelling, s.reference? = some name ∧ s.char = c := by
  unfold resolve at h
  split at h
  · next number =>
    cases hread : readCharacter number with
    | error fault =>
      rw [hread] at h
      cases h
    | ok d =>
      rw [hread] at h
      cases h
      exact exists_spelling_of_readCharacter hread
  · split at h
    · next d hd =>
      cases h
      obtain ⟨e, he, hc⟩ := exists_entity_of_entity? hd
      exact ⟨.entity e, congrArg some he, hc⟩
    · cases h

/-! ## broken references -/

/-- A text with an ampersand that no spelling begins with. -/
def BreaksReference (s : List Char) : Prop :=
  ∃ after, '&' :: after <:+ s ∧
    ∀ spelling name, Spelling.reference? spelling = some name → ¬ name ++ [';'] <+: after

theorem not_breaksReference_nil : ¬ BreaksReference [] := by
  rintro ⟨after, hafter, -⟩
  cases List.suffix_nil.1 hafter

theorem breaksReference_cons {c : Char} (hc : c ≠ '&') (s : List Char) :
    BreaksReference (c :: s) ↔ BreaksReference s := by
  refine exists_congr fun after => and_congr_left fun _ => ?_
  rw [List.suffix_cons_iff, List.cons.injEq, or_iff_right fun h => hc h.1.symm]

theorem breaksReference_ampersand (s : List Char) :
    BreaksReference ('&' :: s) ↔
      (∀ spelling name, Spelling.reference? spelling = some name → ¬ name ++ [';'] <+: s) ∨
        BreaksReference s := by
  constructor
  · rintro ⟨after, hafter, hno⟩
    rcases List.suffix_cons_iff.1 hafter with h | h
    · cases h
      exact .inl hno
    · exact .inr ⟨after, h, hno⟩
  · rintro (hno | ⟨after, hafter, hno⟩)
    · exact ⟨s, List.suffix_rfl, hno⟩
    · exact ⟨after, hafter.trans (List.suffix_cons _ _), hno⟩

theorem breaksReference_append {name : List Char} (hname : '&' ∉ name) (s : List Char) :
    BreaksReference (name ++ s) ↔ BreaksReference s := by
  induction name with
  | nil => rfl
  | cons c rest ih =>
    rw [List.mem_cons, not_or] at hname
    rw [List.cons_append, breaksReference_cons (Ne.symm hname.1), ih hname.2]

/-- Where a spelling begins, its reference is what is read. -/
theorem takeWhile_reference {s : Spelling} {name rest : List Char}
    (hs : s.reference? = some name) (h : name ++ [';'] <+: rest) :
    rest.takeWhile (fun c => c != '&' && c != ';') = name ∧
      ∃ after, rest.drop name.length = ';' :: after := by
  obtain ⟨after, rfl⟩ := h
  have hname : ∀ c ∈ name, c ≠ '&' ∧ c ≠ ';' := fun c hc =>
    ⟨ne_of_mem_of_not_mem hc (not_mem_reference hs (by decide)),
      ne_of_mem_of_not_mem hc (not_mem_reference hs (by decide))⟩
  rw [List.append_assoc, List.singleton_append]
  exact ⟨takeWhile_name hname after, after, List.drop_left⟩

/-- An ampersand that no semicolon follows. -/
theorem breaksReference_bare (before : List Char) {after : List Char} (h : ';' ∉ after) :
    BreaksReference (before ++ '&' :: after) := by
  refine ⟨after, List.suffix_append before _, fun spelling name _ hbegins => ?_⟩
  exact h (hbegins.subset (List.mem_append_right name List.mem_cons_self))

/-- A name that stands for nothing. -/
theorem breaksReference_unknown (before : List Char) {name : List Char}
    (hname : ∀ c ∈ name, c ≠ '&' ∧ c ≠ ';') (hno : (resolve 0 name).toOption = none)
    (after : List Char) : BreaksReference (before ++ '&' :: name ++ ';' :: after) := by
  rw [List.append_assoc, List.cons_append]
  refine ⟨name ++ ';' :: after, List.suffix_append before _, fun spelling other hs hbegins => ?_⟩
  have hother : name = other :=
    (takeWhile_name hname after).symm.trans (takeWhile_reference hs hbegins).1
  rw [hother, resolve_reference hs] at hno
  cases hno

/-- A text cannot be expanded if and only if one of its ampersands begins no
reference. -/
theorem toOption_expandFrom_eq_none_iff (size offset : Nat) (s : List Char) :
    (expandFrom size offset s).toOption = none ↔ BreaksReference s := by
  fun_induction expandFrom size offset s with
  | case1 => simp [Except.toOption, not_breaksReference_nil]
  | case2 offset rest name after hafter ih =>
    have hname : '&' ∉ name ++ [';'] := by
      intro hmem
      rcases List.mem_append.1 hmem with hmem | hmem
      · simpa using List.mem_takeWhile_imp hmem
      · simp at hmem
    have hrest : rest = name ++ [';'] ++ after := by
      have htake : rest.take name.length = name :=
        (List.prefix_iff_eq_take.1 (List.takeWhile_prefix _)).symm
      rw [List.append_assoc, List.singleton_append, ← hafter]
      conv => rhs; arg 1; rw [← htake]
      exact (List.take_append_drop name.length rest).symm
    have hbehind : BreaksReference rest ↔ BreaksReference after := by
      rw [hrest, breaksReference_append hname]
    rw [breaksReference_ampersand, hbehind, toOption_bind]
    cases hread : resolve offset name with
    | ok c =>
      obtain ⟨spelling, hs, -⟩ := exists_spelling_of_resolve hread
      have hbegins : name ++ [';'] <+: rest := hrest ▸ List.prefix_append _ _
      rw [or_iff_right fun hno => hno spelling name hs hbegins, ← ih]
      cases expandFrom size (offset + byteLength name + 2) after <;>
        simp [Except.toOption, bind, Except.bind, pure, Except.pure]
    | error fault =>
      refine iff_of_true rfl (.inl fun spelling other hs hbegins => ?_)
      have hother : name = other := (takeWhile_reference hs hbegins).1
      rw [hother, resolve_reference hs] at hread
      cases hread
  | case3 offset rest name hno =>
    rw [breaksReference_ampersand]
    refine iff_of_true rfl (.inl fun spelling other hs hbegins => ?_)
    obtain ⟨hother, after, hafter⟩ := takeWhile_reference hs hbegins
    have hname : name = other := hother
    rw [← hname] at hafter
    exact hno after hafter
  | case4 offset c rest hc ih =>
    rw [toOption_map, Option.map_eq_none_iff, ih, breaksReference_cons hc]

/-- A text cannot be expanded if and only if one of its ampersands begins no
reference. -/
theorem toOption_expand_eq_none_iff (s : List Char) :
    (expand s).toOption = none ↔ BreaksReference s :=
  toOption_expandFrom_eq_none_iff (byteLength s) 0 s

end ResourceAudit.Xml
