import ResourceAudit.Version
import ResourceAudit.Proofs.Text.Fields

/-!
# ResourceAudit.Proofs.Version.Reading

Versions and their texts.  A version that fits the format is written in one way
(`Version.text`), and reading takes these texts and no others
(`Version.ofText?_eq_some_iff`): a number of up to 64 bits without superfluous
zeros, and identifiers that are not empty.
-/

namespace ResourceAudit

open ResourceAudit.Text

/-! ## numbers -/

/-- Having a zero in front that says nothing. -/
def HasSpareZero (s : List Char) : Prop := s.head? = some '0' ∧ 1 < s.length

theorem decimal_eq (s : List Char) : decimal s = Nat.ofDigitChars 10 s 0 := by
  rw [decimal, Nat.ofDigitChars_eq_foldl]
  simp only [Nat.mul_comm]

theorem decimal_toDigits (n : Nat) : decimal (Nat.toDigits 10 n) = n := by
  rw [decimal_eq, Nat.ofDigitChars_ten_toDigits]

theorem isNumeric_toDigits (n : Nat) : isNumeric (Nat.toDigits 10 n) = true :=
  List.all_eq_true.2 fun _ hc => Nat.isDigit_of_mem_toDigits (by decide) (by decide) hc

/-- The digits of a number begin with a zero only if it is the number zero. -/
theorem eq_zero_of_head?_toDigits {n : Nat} (h : (Nat.toDigits 10 n).head? = some '0') : n = 0 := by
  induction n using Nat.strongRecOn with
  | ind n ih =>
  by_cases hn : n < 10
  · rw [Nat.toDigits_of_lt_base hn, List.head?_cons, Option.some.injEq, ← Char.toNat_inj,
      Nat.toNat_digitChar_of_lt_ten hn] at h
    have hzero : '0'.toNat = 48 := rfl
    omega
  · have hle : 10 ≤ n := by omega
    rw [Nat.toDigits_of_base_le (by decide) hle, List.head?_append,
      List.head?_eq_some_head Nat.toDigits_ne_nil, Option.some_or, ← List.head?_eq_some_head] at h
    have hquotient := ih (n / 10) (by omega) h
    omega

theorem not_hasSpareZero_toDigits (n : Nat) : ¬ HasSpareZero (Nat.toDigits 10 n) := by
  rintro ⟨hhead, hlength⟩
  rw [eq_zero_of_head?_toDigits hhead, Nat.toDigits_zero] at hlength
  exact absurd hlength (by decide)

theorem isDigit_iff {c : Char} : c.isDigit = true ↔ 48 ≤ c.toNat ∧ c.toNat ≤ 57 := by
  rw [Char.isDigit, Bool.and_eq_true, decide_eq_true_iff, decide_eq_true_iff]
  exact Iff.rfl

theorem digitChar_toNat {c : Char} (h : c.isDigit = true) : Nat.digitChar (c.toNat - 48) = c := by
  rw [isDigit_iff] at h
  rw [← Char.toNat_inj, Nat.toNat_digitChar_of_lt_ten (by omega)]
  omega

/-- Digits behind those of a number that is not zero make up those of a larger
one. -/
theorem toDigits_ofDigitChars {s : List Char} (h : isNumeric s = true) {n : Nat} (hn : 0 < n) :
    Nat.toDigits 10 (Nat.ofDigitChars 10 s n) = Nat.toDigits 10 n ++ s := by
  induction s generalizing n with
  | nil => rw [Nat.ofDigitChars_nil, List.append_nil]
  | cons c s ih =>
    rw [isNumeric, List.all_cons, Bool.and_eq_true] at h
    have hdigit : c.toNat - 48 < 10 := by
      have := isDigit_iff.1 h.1
      omega
    have hconcat := Nat.toDigits_append_toDigits (b := 10) (by decide) hn hdigit
    rw [Nat.toDigits_of_lt_base hdigit, digitChar_toNat h.1] at hconcat
    have hzero : '0'.toNat = 48 := rfl
    rw [Nat.ofDigitChars_cons, hzero, ih h.2 (by omega), ← hconcat, List.append_assoc,
      List.singleton_append]

/-- Digits without a spare zero are those of the number they write. -/
theorem toDigits_decimal {s : List Char} (hne : s ≠ []) (h : isNumeric s = true)
    (hzero : ¬ HasSpareZero s) : Nat.toDigits 10 (decimal s) = s := by
  obtain ⟨c, rest, rfl⟩ := List.exists_cons_of_ne_nil hne
  have hdigits := h
  rw [isNumeric, List.all_cons, Bool.and_eq_true] at h
  rw [decimal_eq]
  by_cases hc : c = '0'
  · obtain rfl : rest = [] := by
      cases rest with
      | nil => rfl
      | cons d rest => exact absurd ⟨by rw [hc, List.head?_cons], by simp⟩ hzero
    rw [hc]
    decide
  · have hvalue := isDigit_iff.1 h.1
    have hpos : 0 < c.toNat - 48 := by
      have hne : c.toNat ≠ 48 := fun he => hc (Char.toNat_inj.1 he)
      omega
    have hdigit : c.toNat - 48 < 10 := by omega
    have hzero : '0'.toNat = 48 := rfl
    rw [Nat.ofDigitChars_cons, hzero, Nat.mul_zero, Nat.zero_add, toDigits_ofDigitChars h.2 hpos,
      Nat.toDigits_of_lt_base hdigit, digitChar_toNat h.1, List.singleton_append]

/-- A release number is read from its digits alone. -/
theorem readNumber?_eq_some_iff {s : List Char} {n : Nat} :
    readNumber? s = some n ↔ n < UInt64.size ∧ Nat.toDigits 10 n = s := by
  rw [readNumber?]
  constructor
  · intro h
    split at h
    · cases h
    · next hform =>
      split at h
      · next hsize =>
        cases h
        simp only [Bool.or_eq_true, Bool.and_eq_true, Bool.not_eq_true', List.isEmpty_iff,
          beq_iff_eq, decide_eq_true_eq, not_or, Bool.not_eq_false] at hform
        obtain ⟨⟨hne, hdigits⟩, hzero⟩ := hform
        exact ⟨hsize, toDigits_decimal hne hdigits hzero⟩
      · cases h
  · rintro ⟨hsize, rfl⟩
    have hform : ((Nat.toDigits 10 n).isEmpty || !isNumeric (Nat.toDigits 10 n) ||
        ((Nat.toDigits 10 n).head? == some '0' && decide (1 < (Nat.toDigits 10 n).length))) =
          false := by
      rw [isNumeric_toDigits, List.isEmpty_eq_false_iff.2 Nat.toDigits_ne_nil, Bool.eq_false_iff]
      intro h
      simp only [Bool.not_true, Bool.or_self, Bool.false_or, Bool.and_eq_true, beq_iff_eq,
        decide_eq_true_eq] at h
      exact not_hasSpareZero_toDigits n h
    rw [hform, decimal_toDigits, if_pos hsize]
    rfl

/-! ## identifiers -/

/-- Being an identifier: not empty, of letters, digits and hyphens, and, where
`strict` holds, without a spare zero if it is a number. -/
structure IsIdentifier (strict : Bool) (s : List Char) : Prop where
  ne_nil : s ≠ []
  chars : ∀ c ∈ s, isIdentifierChar c = true
  noSpareZero : strict = true → isNumeric s = true → ¬ HasSpareZero s

theorem IsIdentifier.dot_not_mem {strict : Bool} {s : List Char} (h : IsIdentifier strict s) :
    '.' ∉ s :=
  fun hdot => absurd (h.chars '.' hdot) (by decide)

theorem IsIdentifier.plus_not_mem {strict : Bool} {s : List Char} (h : IsIdentifier strict s) :
    '+' ∉ s :=
  fun hplus => absurd (h.chars '+' hplus) (by decide)

theorem isIdentifier_iff {strict : Bool} {s : List Char} :
    (!s.isEmpty && s.all isIdentifierChar &&
      !(strict && isNumeric s && s.head? == some '0' && decide (1 < s.length))) = true ↔
        IsIdentifier strict s := by
  simp only [Bool.and_eq_true, Bool.not_eq_true', Bool.eq_false_iff, ne_eq, List.isEmpty_iff,
    List.all_eq_true, beq_iff_eq, decide_eq_true_eq]
  constructor
  · rintro ⟨⟨hne, hchars⟩, hzero⟩
    exact ⟨hne, hchars, fun hstrict hnumeric hspare =>
      hzero ⟨⟨⟨hstrict, hnumeric⟩, hspare.1⟩, hspare.2⟩⟩
  · rintro ⟨hne, hchars, hzero⟩
    exact ⟨⟨hne, hchars⟩, fun ⟨⟨⟨hstrict, hnumeric⟩, hhead⟩, hlength⟩ =>
      hzero hstrict hnumeric ⟨hhead, hlength⟩⟩

/-- Dotted identifiers are read from their text alone. -/
theorem readIdentifiers?_eq_some_iff {strict : Bool} {s : List Char} {ids : List (List Char)} :
    readIdentifiers? strict s = some ids ↔
      ids ≠ [] ∧ (∀ id ∈ ids, IsIdentifier strict id) ∧ ['.'].intercalate ids = s := by
  rw [readIdentifiers?]
  constructor
  · intro h
    split at h
    · next hids =>
      cases h
      exact ⟨fields_ne_nil _ _, fun id hid => isIdentifier_iff.1 (List.all_eq_true.1 hids id hid),
        intercalate_fields s⟩
    · cases h
  · rintro ⟨hne, hids, rfl⟩
    have hfields := fields_intercalate hne fun id hid => (hids id hid).dot_not_mem
    rw [hfields]
    exact if_pos (List.all_eq_true.2 fun id hid => isIdentifier_iff.2 (hids id hid))

/-! ## versions -/

namespace Version

/-- Identifiers behind a mark; nothing where there are none. -/
def tailText (mark : Char) : List (List Char) → List Char
  | [] => []
  | ids => mark :: ['.'].intercalate ids

/-- The release numbers as they are written. -/
def release (v : Version) : List (List Char) := [v.major, v.minor, v.patch].map (Nat.toDigits 10)

/-- A version as it is written. -/
def text (v : Version) : List Char :=
  ['.'].intercalate v.release ++ (tailText '-' v.pre ++ tailText '+' v.build)

/-- Being a version that can be written: its numbers fit in 64 bits, and its
identifiers are ones. -/
structure IsValid (v : Version) : Prop where
  major : v.major < UInt64.size
  minor : v.minor < UInt64.size
  patch : v.patch < UInt64.size
  pre : ∀ id ∈ v.pre, IsIdentifier true id
  build : ∀ id ∈ v.build, IsIdentifier false id

theorem readTail?_tailText {strict : Bool} {mark : Char} {ids : List (List Char)}
    (h : ∀ id ∈ ids, IsIdentifier strict id) : readTail? strict (tailText mark ids) = some ids := by
  cases ids with
  | nil => rfl
  | cons id ids => exact readIdentifiers?_eq_some_iff.2 ⟨List.cons_ne_nil _ _, h, rfl⟩

theorem tailText_of_readTail? {strict : Bool} (mark : Char) {s : List Char} {ids : List (List Char)}
    (h : readTail? strict s = some ids) (hmark : ∀ c, s.head? = some c → c = mark) :
    (∀ id ∈ ids, IsIdentifier strict id) ∧ tailText mark ids = s := by
  cases s with
  | nil =>
    cases h
    exact ⟨by simp, rfl⟩
  | cons c s =>
    obtain ⟨hne, hids, rfl⟩ := readIdentifiers?_eq_some_iff.1 h
    obtain ⟨id, others, rfl⟩ := List.exists_cons_of_ne_nil hne
    exact ⟨hids, by rw [hmark c rfl]; rfl⟩

/-! ## reading -/

/-- What follows the characters of a class at the front. -/
theorem drop_length_takeWhile (p : Char → Bool) (s : List Char) :
    s.drop (s.takeWhile p).length = s.dropWhile p :=
  calc s.drop (s.takeWhile p).length
      _ = (s.takeWhile p ++ s.dropWhile p).drop (s.takeWhile p).length :=
        congrArg _ List.takeWhile_append_dropWhile.symm
      _ = s.dropWhile p := List.drop_left

/-- Whether a character belongs to the release numbers and not to what follows
them. -/
def isReleaseChar (c : Char) : Bool := c != '-' && c != '+'

theorem ofText?_eq (s : List Char) : ofText? s =
    (readTail? true ((s.dropWhile isReleaseChar).takeWhile (· != '+'))).bind fun pre =>
      (readTail? false ((s.dropWhile isReleaseChar).dropWhile (· != '+'))).bind fun build =>
        match fields (· == '.') (s.takeWhile isReleaseChar) with
        | [major, minor, patch] =>
          (readNumber? major).bind fun major => (readNumber? minor).bind fun minor =>
            (readNumber? patch).bind fun patch => some ⟨major, minor, patch, pre, build⟩
        | _ => none := by
  have hrelease := drop_length_takeWhile isReleaseChar s
  have htail := drop_length_takeWhile (· != '+') (s.dropWhile isReleaseChar)
  rw [← htail, ← hrelease]
  rfl

/-- What follows the longest front of a class begins with a character of another. -/
theorem of_head?_dropWhile {p : Char → Bool} {s : List Char} {c : Char}
    (h : (s.dropWhile p).head? = some c) : p c = false := by
  have hhead := List.head?_dropWhile_not p s
  rwa [h] at hhead

theorem isReleaseChar_of_isDigit {c : Char} (h : c.isDigit = true) : isReleaseChar c = true := by
  rw [isReleaseChar, Bool.and_eq_true, bne_iff_ne, bne_iff_ne]
  constructor
  · rintro rfl
    exact absurd h (by decide)
  · rintro rfl
    exact absurd h (by decide)

theorem isReleaseChar_of_mem_release (v : Version) :
    ∀ c ∈ ['.'].intercalate v.release, isReleaseChar c = true := by
  rw [forall_mem_intercalate (by decide), release, List.forall_mem_map]
  intro n _ c hc
  exact isReleaseChar_of_isDigit (List.all_eq_true.1 (isNumeric_toDigits n) c hc)

theorem dot_not_mem_release (v : Version) : ∀ piece ∈ v.release, '.' ∉ piece := by
  rw [release, List.forall_mem_map]
  intro n _ hdot
  exact absurd (List.all_eq_true.1 (isNumeric_toDigits n) '.' hdot) (by decide)

theorem ne_plus_of_mem_tailText {strict : Bool} {ids : List (List Char)}
    (h : ∀ id ∈ ids, IsIdentifier strict id) : ∀ c ∈ tailText '-' ids, (c != '+') = true := by
  cases ids with
  | nil => simp [tailText]
  | cons id ids =>
    rw [tailText, List.forall_mem_cons, forall_mem_intercalate (by decide)]
    · refine ⟨by decide, fun id hid c hc => ?_⟩
      rw [bne_iff_ne]
      rintro rfl
      exact (h id hid).plus_not_mem hc
    · exact List.cons_ne_nil id ids

/-- What follows the release numbers begins with a mark. -/
theorem head?_tailTexts (pre build : List (List Char)) {c : Char}
    (h : (tailText '-' pre ++ tailText '+' build).head? = some c) : isReleaseChar c = false := by
  cases pre <;> cases build <;>
    simp only [tailText, List.nil_append, List.cons_append, List.head?_cons, List.head?_nil,
      Option.some.injEq, reduceCtorEq] at h <;> exact h ▸ rfl

/-- A front of a class is the longest one if what follows it begins with a
character of another. -/
theorem takeWhile_append_of_head? {p : Char → Bool} {front rest : List Char}
    (hfront : ∀ c ∈ front, p c = true) (hrest : ∀ c, rest.head? = some c → p c = false) :
    (front ++ rest).takeWhile p = front ∧ (front ++ rest).dropWhile p = rest := by
  rw [List.takeWhile_append_of_pos hfront, List.dropWhile_append_of_pos hfront]
  cases rest with
  | nil => exact ⟨by simp, rfl⟩
  | cons c rest =>
    have hc := hrest c rfl
    rw [List.takeWhile_cons_of_neg (by simp [hc]), List.dropWhile_cons_of_neg (by simp [hc])]
    exact ⟨List.append_nil front, rfl⟩

theorem ofText?_text {v : Version} (hv : v.IsValid) : ofText? v.text = some v := by
  obtain ⟨hrelease, htail⟩ := takeWhile_append_of_head? v.isReleaseChar_of_mem_release
    fun c => head?_tailTexts v.pre v.build
  have hbuild : ∀ c, (tailText '+' v.build).head? = some c → (c != '+') = false := by
    cases v.build with
    | nil => simp [tailText]
    | cons id ids => simp [tailText]
  obtain ⟨hpre, hbuild⟩ := takeWhile_append_of_head? (ne_plus_of_mem_tailText hv.pre) hbuild
  have hfields := fields_intercalate (by simp [release]) v.dot_not_mem_release
  rw [ofText?_eq, text, hrelease, htail, hpre, hbuild, readTail?_tailText hv.pre,
    readTail?_tailText hv.build, hfields]
  simp only [release, List.map_cons, List.map_nil, Option.bind_some,
    readNumber?_eq_some_iff.2 ⟨hv.major, rfl⟩, readNumber?_eq_some_iff.2 ⟨hv.minor, rfl⟩,
    readNumber?_eq_some_iff.2 ⟨hv.patch, rfl⟩]

theorem isValid_of_ofText? {s : List Char} {v : Version} (h : ofText? s = some v) :
    v.IsValid ∧ v.text = s := by
  rw [ofText?_eq, Option.bind_eq_some_iff] at h
  obtain ⟨pre, hpre, h⟩ := h
  rw [Option.bind_eq_some_iff] at h
  obtain ⟨build, hbuild, h⟩ := h
  split at h
  · next major minor patch hfields =>
    simp only [Option.bind_eq_some_iff, readNumber?_eq_some_iff, Option.some.injEq] at h
    obtain ⟨major, ⟨hmajor, rfl⟩, minor, ⟨hminor, rfl⟩, patch, ⟨hpatch, rfl⟩, rfl⟩ := h
    -- a mark that is not that of build metadata is the one of a pre-release
    obtain ⟨hpre, hpreText⟩ := tailText_of_readTail? '-' hpre fun c hc => by
      rw [List.head?_takeWhile, Option.filter_eq_some_iff] at hc
      have hmark := of_head?_dropWhile hc.1
      rw [isReleaseChar, Bool.and_eq_false_iff, bne_eq_false_iff_eq] at hmark
      exact hmark.resolve_right fun hplus => by simp [hplus] at hc
    obtain ⟨hbuild, hbuildText⟩ := tailText_of_readTail? '+' hbuild fun c hc => by
      simpa using of_head?_dropWhile hc
    refine ⟨⟨hmajor, hminor, hpatch, hpre, hbuild⟩, ?_⟩
    rw [text, hpreText, hbuildText, release, List.map_cons, List.map_cons, List.map_cons,
      List.map_nil, ← hfields, intercalate_fields, List.takeWhile_append_dropWhile,
      List.takeWhile_append_dropWhile]
  · cases h

/-- A text is read as a version just if it is the one that writes it. -/
theorem ofText?_eq_some_iff {s : List Char} {v : Version} :
    ofText? s = some v ↔ v.IsValid ∧ v.text = s :=
  ⟨isValid_of_ofText?, fun ⟨hv, hs⟩ => hs ▸ ofText?_text hv⟩

end Version

end ResourceAudit
