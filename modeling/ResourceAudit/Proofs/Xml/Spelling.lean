import ResourceAudit.Xml.Reference
import Mathlib.Data.List.Basic

/-!
# ResourceAudit.Proofs.Xml.Spelling

How text writes characters: as they are, by an entity, or by their number in
decimal or hexadecimal digits.  A `Spelling` is one character written in one of
these ways; well-formed character data is a list of them.  Main statements:

* `expand_written` — expanding what spellings write gives their characters;
* `expand_written_append` — what follows does not change that, so that text may
  be expanded piece by piece;
* `written_spell` — escaping a text is one way to spell it.
-/

namespace ResourceAudit.Xml

open ResourceAudit.Text

/-! ## spellings -/

/-- The characters that have a name. -/
inductive Entity where
  | lt
  | gt
  | amp
  | apos
  | quot
  deriving DecidableEq, Repr

namespace Entity

def name : Entity → List Char
  | .lt => "lt".toList
  | .gt => "gt".toList
  | .amp => "amp".toList
  | .apos => "apos".toList
  | .quot => "quot".toList

def char : Entity → Char
  | .lt => '<'
  | .gt => '>'
  | .amp => '&'
  | .apos => '\''
  | .quot => '"'

end Entity

/-- A character as a text writes it. -/
inductive Spelling where
  /-- The character itself. -/
  | plain (c : Char) (unreserved : c ≠ '<' ∧ c ≠ '&')
  | entity (e : Entity)
  | decimal (digits : List Char) (c : Char)
      (named : digitsValue? 10 digits = some c.toNat ∧ c.toNat ≠ 0)
  | hexadecimal (digits : List Char) (c : Char)
      (named : digitsValue? 16 digits = some c.toNat ∧ c.toNat ≠ 0)
  deriving DecidableEq

namespace Spelling

/-- The character that is meant. -/
def char : Spelling → Char
  | .plain c _ => c
  | .entity e => e.char
  | .decimal _ c _ => c
  | .hexadecimal _ c _ => c

/-- What stands between the ampersand and the semicolon of a reference. -/
def reference? : Spelling → Option (List Char)
  | .plain .. => none
  | .entity e => some e.name
  | .decimal digits .. => some ('#' :: digits)
  | .hexadecimal digits .. => some ('#' :: 'x' :: digits)

/-- What stands in the text. -/
def written (s : Spelling) : List Char :=
  match s.reference? with
  | none => [s.char]
  | some name => '&' :: name ++ [';']

end Spelling

/-- The text that spellings write. -/
def written (ss : List Spelling) : List Char := ss.flatMap Spelling.written

/-- The characters that spellings mean. -/
def meant (ss : List Spelling) : List Char := ss.map Spelling.char

@[simp] theorem written_nil : written [] = [] := rfl

@[simp] theorem written_cons (s : Spelling) (ss : List Spelling) :
    written (s :: ss) = s.written ++ written ss := List.flatMap_cons

/-! ## numbers -/

theorem le_foldlM_digits {base : Nat} (hb : 0 < base) {digits : List Char} {value n : Nat}
    (h : digits.foldlM (fun value c => (digitValue? base c).map (value * base + ·)) value = some n) :
    value ≤ n := by
  induction digits generalizing value with
  | nil =>
    simp only [List.foldlM_nil, Option.pure_def, Option.some.injEq] at h
    exact Nat.le_of_eq h
  | cons c rest ih =>
    simp only [List.foldlM_cons, Option.bind_eq_bind, Option.bind_eq_some_iff,
      Option.map_eq_some_iff] at h
    obtain ⟨_, ⟨digit, -, rfl⟩, hrest⟩ := h
    calc
      value ≤ value * base := Nat.le_mul_of_pos_right value hb
      _ ≤ value * base + digit := Nat.le_add_right _ _
      _ ≤ n := ih hrest

/-- Digits that name a number of 32 bits are read as that number. -/
theorem readDigits_eq_ok {base : Nat} (hb : 0 < base) {digits : List Char} {value n : Nat}
    (h : digits.foldlM (fun value c => (digitValue? base c).map (value * base + ·)) value = some n)
    (hn : n < UInt32.size) : readDigits base value digits = .ok n := by
  induction digits generalizing value with
  | nil =>
    simp only [List.foldlM_nil, Option.pure_def, Option.some.injEq] at h
    rw [readDigits, h]
  | cons c rest ih =>
    simp only [List.foldlM_cons, Option.bind_eq_bind, Option.bind_eq_some_iff,
      Option.map_eq_some_iff] at h
    obtain ⟨_, ⟨digit, hd, rfl⟩, hrest⟩ := h
    have hle := le_foldlM_digits hb hrest
    rw [readDigits, hd]
    dsimp only
    rw [if_pos (by omega), ih hrest]

/-- Every character of a number is a digit. -/
theorem digitValue?_ne_none {base : Nat} {digits : List Char} {n : Nat}
    (h : digitsValue? base digits = some n) {c : Char} (hc : c ∈ digits) :
    digitValue? base c ≠ none := by
  obtain ⟨before, after, rfl⟩ := List.append_of_mem hc
  simp only [digitsValue?, List.foldlM_append, List.foldlM_cons, Option.bind_eq_bind,
    Option.bind_eq_some_iff, Option.map_eq_some_iff] at h
  obtain ⟨_, -, _, ⟨digit, hd, -⟩, -⟩ := h
  simp [hd]

theorem not_mem_digits {base : Nat} {digits : List Char} {n : Nat}
    (h : digitsValue? base digits = some n) {c : Char} (hc : digitValue? base c = none) :
    c ∉ digits :=
  fun hmem => digitValue?_ne_none h hmem hc

theorem readCode_eq_ok {base : Nat} (hb : 0 < base) {digits : List Char} {c : Char}
    (h : digitsValue? base digits = some c.toNat ∧ c.toNat ≠ 0) :
    readCode base digits = .ok c.toNat := by
  have hread : readDigits base 0 digits = .ok c.toNat := readDigits_eq_ok hb h.1 c.val.toNat_lt
  unfold readCode
  split
  · simp [digitsValue?] at h
    exact absurd h.1.symm h.2
  · exact absurd List.mem_cons_self (not_mem_digits h.1 (by simp [digitValue?]))
  · exact absurd List.mem_cons_self (not_mem_digits h.1 (by simp [digitValue?]))
  · rw [hread]
    rfl

/-- A number that stands for a character is read as that character. -/
theorem readCharacter_eq_ok {s digits : List Char} {base : Nat} {c : Char}
    (hs : readCharacter s = do
      let code ← readCode base digits
      if code = 0 then throw .null
      if code.isValidChar then return Char.ofNat code else throw (.noCodepoint code))
    (hcode : readCode base digits = .ok c.toNat) (h0 : c.toNat ≠ 0) :
    readCharacter s = .ok c := by
  have hvalid : c.toNat.isValidChar := c.valid
  rw [hs, hcode]
  simp [bind, Except.bind, h0, hvalid, pure, Except.pure]

/-! ## references -/

theorem resolve_reference {s : Spelling} {name : List Char} (h : s.reference? = some name)
    (start : Nat) : resolve start name = .ok s.char := by
  cases s with
  | plain c hc => simp [Spelling.reference?] at h
  | entity e =>
    simp only [Spelling.reference?, Option.some.injEq] at h
    subst h
    cases e <;> rfl
  | decimal digits c hc =>
    simp only [Spelling.reference?, Option.some.injEq] at h
    subst h
    have hx : 'x' ∉ digits := not_mem_digits hc.1 (by simp [digitValue?])
    have hread : readCharacter digits = .ok c := by
      refine readCharacter_eq_ok ?_ (readCode_eq_ok (by decide) hc) hc.2
      unfold readCharacter
      split
      · exact absurd List.mem_cons_self hx
      · rfl
    rw [resolve, hread]
    rfl
  | hexadecimal digits c hc =>
    simp only [Spelling.reference?, Option.some.injEq] at h
    subst h
    have hread : readCharacter ('x' :: digits) = .ok c :=
      readCharacter_eq_ok rfl (readCode_eq_ok (by decide) hc) hc.2
    rw [resolve, hread]
    rfl

/-- The text of a reference holds none of the characters that mark where
something begins or ends. -/
theorem not_mem_reference {s : Spelling} {name : List Char} (h : s.reference? = some name)
    {c : Char} (hc : c ∈ "&;<\"'".toList) : c ∉ name := by
  have hmark : c = '&' ∨ c = ';' ∨ c = '<' ∨ c = '"' ∨ c = '\'' := by simpa using hc
  have hletter : c ≠ '#' ∧ c ≠ 'x' := by
    rcases hmark with rfl | rfl | rfl | rfl | rfl <;> decide
  have hdigit : ∀ base, digitValue? base c = none := fun base => by
    rcases hmark with rfl | rfl | rfl | rfl | rfl <;> simp [digitValue?]
  have hentity : ∀ e : Entity, c ∉ e.name := fun e => by
    rcases hmark with rfl | rfl | rfl | rfl | rfl <;> cases e <;> decide
  cases s with
  | plain c hc => simp [Spelling.reference?] at h
  | entity e =>
    simp only [Spelling.reference?, Option.some.injEq] at h
    subst h
    exact hentity e
  | decimal digits d hd =>
    simp only [Spelling.reference?, Option.some.injEq] at h
    subst h
    rw [List.mem_cons, not_or]
    exact ⟨hletter.1, not_mem_digits hd.1 (hdigit 10)⟩
  | hexadecimal digits d hd =>
    simp only [Spelling.reference?, Option.some.injEq] at h
    subst h
    rw [List.mem_cons, List.mem_cons, not_or, not_or]
    exact ⟨hletter.1, hletter.2, not_mem_digits hd.1 (hdigit 16)⟩

/-- No spelling opens markup. -/
theorem lt_not_mem_written (ss : List Spelling) : '<' ∉ written ss := by
  intro h
  obtain ⟨s, -, hs⟩ := List.mem_flatMap.1 h
  cases hr : s.reference? with
  | none =>
    cases s with
    | plain c hc =>
      rw [Spelling.written, hr, List.mem_singleton] at hs
      exact hc.1 hs.symm
    | _ => simp [Spelling.reference?] at hr
  | some name =>
    rw [Spelling.written, hr] at hs
    simp [not_mem_reference hr (c := '<') (by decide)] at hs

/-! ## expanding -/

/-- The name of a reference ends at the semicolon. -/
theorem takeWhile_name {name : List Char} (hname : ∀ c ∈ name, c ≠ '&' ∧ c ≠ ';')
    (t : List Char) :
    (name ++ ';' :: t).takeWhile (fun c => c != '&' && c != ';') = name := by
  rw [List.takeWhile_append_of_pos (by simpa using hname), List.takeWhile_cons_of_neg (by simp),
    List.append_nil]

/-- A reference at the front of a text. -/
theorem expandFrom_reference (size offset : Nat) {name : List Char}
    (hname : ∀ c ∈ name, c ≠ '&' ∧ c ≠ ';') (t : List Char) :
    expandFrom size offset ('&' :: name ++ ';' :: t) = do
      let c ← resolve offset name
      let others ← expandFrom size (offset + byteLength name + 2) t
      return c :: others := by
  have htake := takeWhile_name hname t
  have hdrop : (name ++ ';' :: t).drop name.length = ';' :: t := List.drop_left
  rw [List.cons_append, expandFrom]
  split
  · next after hafter =>
    rw [htake, hdrop, List.cons.injEq] at hafter
    rw [htake, hafter.2]
  · next hno => exact absurd (htake.symm ▸ hdrop) (hno t)

/-- A character that stands for itself at the front of a text. -/
theorem expandFrom_plain (size offset : Nat) {c : Char} (hc : c ≠ '&') (t : List Char) :
    expandFrom size offset (c :: t) = (expandFrom size (offset + c.utf8Size) t).map (c :: ·) := by
  rw [expandFrom]
  exact hc

theorem expandFrom_written (size offset : Nat) (s : Spelling) (t : List Char) :
    expandFrom size offset (s.written ++ t) =
      (expandFrom size (offset + byteLength s.written) t).map (s.char :: ·) := by
  cases hs : s.reference? with
  | none =>
    obtain ⟨c, hc, rfl⟩ : ∃ c hc, s = .plain c hc := by
      cases s with
      | plain c hc => exact ⟨c, hc, rfl⟩
      | _ => simp [Spelling.reference?] at hs
    simp only [Spelling.written, hs, Spelling.char, List.cons_append, List.nil_append, byteLength,
      Nat.add_zero]
    exact expandFrom_plain size offset hc.2 t
  | some name =>
    have hw : s.written = '&' :: name ++ [';'] := by rw [Spelling.written, hs]
    have hsize : byteLength s.written = byteLength name + 2 := by
      have hamp : '&'.utf8Size = 1 := by decide
      have hsemi : ';'.utf8Size = 1 := by decide
      rw [hw, List.cons_append, byteLength, byteLength_append, byteLength, byteLength, hamp, hsemi]
      omega
    have hname : ∀ c ∈ name, c ≠ '&' ∧ c ≠ ';' := fun c hc =>
      ⟨ne_of_mem_of_not_mem hc (not_mem_reference hs (by decide)),
        ne_of_mem_of_not_mem hc (not_mem_reference hs (by decide))⟩
    rw [hsize, hw, List.append_assoc, List.singleton_append,
      expandFrom_reference size offset hname, resolve_reference hs, Nat.add_assoc]
    cases expandFrom size (offset + (byteLength name + 2)) t <;> rfl

theorem expandFrom_written_append (size offset : Nat) (ss : List Spelling) (t : List Char) :
    expandFrom size offset (written ss ++ t) =
      (expandFrom size (offset + byteLength (written ss)) t).map (meant ss ++ ·) := by
  induction ss generalizing offset with
  | nil =>
    rw [written_nil, List.nil_append, byteLength, Nat.add_zero]
    cases expandFrom size offset t <;> rfl
  | cons s ss ih =>
    rw [written_cons, List.append_assoc, expandFrom_written, ih, byteLength_append, Nat.add_assoc]
    cases expandFrom size (offset + (byteLength s.written + byteLength (written ss))) t <;> rfl

/-- Expanding what spellings write gives the characters they mean. -/
theorem expand_written (ss : List Spelling) : expand (written ss) = .ok (meant ss) := by
  have h := expandFrom_written_append (byteLength (written ss)) 0 ss []
  rw [List.append_nil, expandFrom] at h
  rw [expand, h]
  simp [Except.map]

theorem toOption_bind {ε α β : Type} (x : Except ε α) (f : α → Except ε β) :
    (x >>= f).toOption = x.toOption.bind fun a => (f a).toOption := by
  cases x <;> rfl

theorem toOption_map {ε α β : Type} (x : Except ε α) (f : α → β) :
    (x.map f).toOption = x.toOption.map f := by
  cases x <;> rfl

/-- Where a text stands shows in faults only. -/
theorem toOption_resolve (start start' : Nat) (name : List Char) :
    (resolve start name).toOption = (resolve start' name).toOption := by
  unfold resolve
  split
  · rfl
  · split <;> rfl

theorem toOption_expandFrom (size offset size' offset' : Nat) (s : List Char) :
    (expandFrom size offset s).toOption = (expandFrom size' offset' s).toOption := by
  fun_induction expandFrom size offset s generalizing offset' with
  | case1 => simp [expandFrom]
  | case2 offset rest name after hafter ih =>
    rw [expandFrom]
    split
    · next after' hafter' =>
      obtain rfl : after = after' := (List.cons.inj (hafter.symm.trans hafter')).2
      simp only [toOption_bind, toOption_resolve offset offset',
        ih (offset' + byteLength name + 2)]
      rfl
    · next hno => exact absurd hafter (hno after)
  | case3 offset rest name hno =>
    rw [expandFrom]
    split
    · next after hafter => exact absurd hafter (hno after)
    · rfl
  | case4 offset c rest hc ih =>
    rw [expandFrom_plain size' offset' hc, toOption_map, toOption_map, ih]

/-- Text that spellings write can be expanded apart from what follows it. -/
theorem expand_written_append (ss : List Spelling) (t : List Char) :
    (expand (written ss ++ t)).toOption = (expand t).toOption.map (meant ss ++ ·) := by
  rw [expand, expandFrom_written_append, toOption_map, expand,
    toOption_expandFrom _ _ (byteLength t) 0]

/-! ## escaping -/

/-- The spelling that escapes a character. -/
def spellChar (c : Char) : Spelling :=
  if h : c = '<' ∨ c = '&' then if c = '<' then .entity .lt else .entity .amp
  else if c = '>' then .entity .gt
  else if c = '\'' then .entity .apos
  else if c = '"' then .entity .quot
  else .plain c (not_or.1 h)

/-- The spellings that escape a text. -/
def spell (s : List Char) : List Spelling := s.map spellChar

theorem written_spellChar (c : Char) : (spellChar c).written = escapeChar c := by
  by_cases h : c = '<' ∨ c = '&'
  · rcases h with rfl | rfl <;> rfl
  by_cases hgt : c = '>'
  · subst hgt; rfl
  by_cases hapos : c = '\''
  · subst hapos; rfl
  by_cases hquot : c = '"'
  · subst hquot; rfl
  have hplain : escapeChar c = [c] := by
    rw [not_or] at h
    unfold escapeChar
    split <;> simp_all
  rw [hplain, spellChar, dif_neg h, if_neg hgt, if_neg hapos, if_neg hquot]
  rfl

/-- Escaping a text is one way to spell it. -/
@[simp] theorem written_spell (s : List Char) : written (spell s) = escape s := by
  rw [written, spell, List.flatMap_map, escape]
  exact congrArg (s.flatMap ·) (funext written_spellChar)

@[simp] theorem char_spellChar (c : Char) : (spellChar c).char = c := by
  unfold spellChar
  repeat' split
  all_goals simp_all [Spelling.char, Entity.char]

@[simp] theorem meant_spell (s : List Char) : meant (spell s) = s := by
  simp [meant, spell, Function.comp_def]

end ResourceAudit.Xml
