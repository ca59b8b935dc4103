import ResourceAudit.Proofs.Sorting
import ResourceAudit.Proofs.Version.Reading

/-!
# ResourceAudit.Proofs.Version.Order

The order of the names of versions.  Each step of it is a comparison by a key, of
one key behind another, of lists, or of things of two kinds, so it is total and
transitive as they are; and it takes no two names for one, since a version has
one name (`compareVersionNames_totalOrder`).
-/

namespace ResourceAudit

theorem compareLists_eq_compareLex {α : Type} (order : α → α → Ordering) :
    compareLists order = List.compareLex order := by
  funext as bs
  induction as generalizing bs with
  | nil => cases bs <;> rfl
  | cons a as ih =>
    cases bs with
    | nil => rfl
    | cons b bs => rw [compareLists, List.compareLex_cons_cons, ih]

/-! ## texts and digits -/

theorem compareText_eq_compareBy : compareText = compareBy compare String.ofList := by
  funext s t
  have hstring : ∀ a b : String, compare a b = compareOfLessAndEq a b := fun _ _ => rfl
  rw [compareText, compareBy, hstring]
  simp only [compareOfLessAndEq, String.lt_iff, String.toList_ofList, String.ofList_inj]

instance : Std.TransCmp compareText := compareText_eq_compareBy ▸ inferInstance

instance : Std.LawfulEqCmp compareText :=
  compareText_eq_compareBy ▸ lawfulEqCmp_compareBy fun _ _ => String.ofList_inj.1

theorem compareDigits_eq_compareLex :
    compareDigits = compareLex (compareOn List.length) compareText := rfl

instance : Std.TransCmp compareDigits := compareDigits_eq_compareLex ▸ inferInstance

instance : Std.LawfulEqCmp compareDigits where
  compare_self {s} := by
    rw [compareDigits_eq_compareLex]
    exact Std.ReflCmp.compare_self
  eq_of_compare {s t} h := by
    rw [compareDigits_eq_compareLex, compareLex_eq_eq] at h
    exact Std.LawfulEqCmp.eq_of_compare h.2

/-- A number in build metadata without the zeros in front of it. -/
def withoutZeros (s : List Char) : List Char := s.dropWhile (· == '0')

theorem compareBuildNumbers_eq_compareLex : compareBuildNumbers =
    compareLex (compareBy compareDigits withoutZeros) (compareOn List.length) := rfl

instance : Std.TransCmp compareBuildNumbers := compareBuildNumbers_eq_compareLex ▸ inferInstance

/-- Texts are the same that have the same length and are so without their zeros. -/
theorem eq_of_withoutZeros {s t : List Char} (h : withoutZeros s = withoutZeros t)
    (hlength : s.length = t.length) : s = t := by
  have hsplit : ∀ u : List Char, u.takeWhile (· == '0') ++ withoutZeros u = u :=
    fun u => List.takeWhile_append_dropWhile
  have hzeros : ∀ u : List Char,
      u.takeWhile (· == '0') = List.replicate (u.takeWhile (· == '0')).length '0' := fun u =>
    List.eq_replicate_of_mem fun c hc => eq_of_beq (List.all_eq_true.1 List.all_takeWhile c hc)
  have hcount : (s.takeWhile (· == '0')).length = (t.takeWhile (· == '0')).length := by
    rw [← hsplit s, ← hsplit t, List.length_append, List.length_append, h] at hlength
    omega
  rw [← hsplit s, ← hsplit t, h, hzeros s, hzeros t, hcount]

instance : Std.LawfulEqCmp compareBuildNumbers where
  compare_self {s} := by
    rw [compareBuildNumbers_eq_compareLex]
    exact Std.ReflCmp.compare_self
  eq_of_compare {s t} h := by
    rw [compareBuildNumbers_eq_compareLex, compareLex_eq_eq] at h
    exact eq_of_withoutZeros (Std.LawfulEqCmp.eq_of_compare h.1) (Std.LawfulEqCmp.eq_of_compare h.2)

/-! ## identifiers -/

/-- An identifier as one of two kinds, numbers and words. -/
def identifierKind (s : List Char) : List Char ⊕ List Char := if isNumeric s then .inl s else .inr s

theorem eq_of_identifierKind {s t : List Char} (h : identifierKind s = identifierKind t) : s = t := by
  rw [identifierKind, identifierKind] at h
  split at h <;> split at h <;> cases h <;> rfl

section Identifiers

variable {numbers : List Char → List Char → Ordering}

theorem compareIdentifiers_eq_compareBy : compareIdentifiers numbers =
    compareBy (compareSum numbers compareText) identifierKind := by
  funext s t
  rw [compareIdentifiers, compareBy, identifierKind, identifierKind]
  cases isNumeric s <;> cases isNumeric t <;> rfl

instance [Std.TransCmp numbers] : Std.TransCmp (compareIdentifiers numbers) :=
  compareIdentifiers_eq_compareBy ▸ inferInstance

instance [Std.LawfulEqCmp numbers] : Std.LawfulEqCmp (compareIdentifiers numbers) :=
  compareIdentifiers_eq_compareBy ▸ lawfulEqCmp_compareBy fun _ _ => eq_of_identifierKind

end Identifiers

theorem comparePre_eq_compareLex : comparePre =
    compareLex (compareOn List.isEmpty) (List.compareLex (compareIdentifiers compareDigits)) := by
  funext s t
  rw [← compareLists_eq_compareLex]
  cases s <;> cases t <;> rfl

instance : Std.TransCmp comparePre := comparePre_eq_compareLex ▸ inferInstance

instance : Std.LawfulEqCmp comparePre where
  compare_self {s} := by
    rw [comparePre_eq_compareLex]
    exact Std.ReflCmp.compare_self
  eq_of_compare {s t} h := by
    rw [comparePre_eq_compareLex, compareLex_eq_eq] at h
    exact Std.LawfulEqCmp.eq_of_compare h.2

theorem compareBuild_eq_compareLex :
    compareBuild = List.compareLex (compareIdentifiers compareBuildNumbers) := by
  funext s t
  rw [compareBuild, compareLists_eq_compareLex]

instance : Std.TransCmp compareBuild := compareBuild_eq_compareLex ▸ inferInstance

instance : Std.LawfulEqCmp compareBuild := compareBuild_eq_compareLex ▸ inferInstance

/-! ## versions -/

namespace Version

theorem compare_eq_compareLex : Version.compare =
    compareLex (compareOn major) (compareLex (compareOn minor) (compareLex (compareOn patch)
      (compareLex (compareBy comparePre pre) (compareBy compareBuild build)))) := rfl

instance : Std.TransCmp Version.compare := compare_eq_compareLex ▸ inferInstance

instance : Std.LawfulEqCmp Version.compare where
  compare_self {v} := by
    rw [compare_eq_compareLex]
    exact Std.ReflCmp.compare_self
  eq_of_compare {v w} h := by
    simp only [compare_eq_compareLex, compareLex_eq_eq] at h
    obtain ⟨hmajor, hminor, hpatch, hpre, hbuild⟩ := h
    have hmajor : v.major = w.major := Std.LawfulEqCmp.eq_of_compare hmajor
    have hminor : v.minor = w.minor := Std.LawfulEqCmp.eq_of_compare hminor
    have hpatch : v.patch = w.patch := Std.LawfulEqCmp.eq_of_compare hpatch
    have hpre : v.pre = w.pre := Std.LawfulEqCmp.eq_of_compare hpre
    have hbuild : v.build = w.build := Std.LawfulEqCmp.eq_of_compare hbuild
    cases v
    cases w
    simp_all

/-- The name of a version. -/
def name (v : Version) : String := .ofList v.text

/-- Being the name of a version. -/
def IsName (s : String) : Prop := ∃ v : Version, v.IsValid ∧ v.name = s

theorem isName_iff {s : String} : IsName s ↔ (ofText? s.toList).isSome = true := by
  rw [Option.isSome_iff_exists]
  constructor
  · rintro ⟨v, hv, rfl⟩
    exact ⟨v, by rw [name, String.toList_ofList, ofText?_text hv]⟩
  · rintro ⟨v, hv⟩
    obtain ⟨hvalid, htext⟩ := isValid_of_ofText? hv
    exact ⟨v, hvalid, by rw [name, htext, String.ofList_toList]⟩

instance : DecidablePred IsName := fun _ => decidable_of_iff _ isName_iff.symm

/-- A name as one of two kinds, those that are no versions and versions. -/
def kindOf (s : String) : List Char ⊕ Version :=
  match ofText? s.toList with
  | none => .inl s.toList
  | some v => .inr v

theorem kindOf_name {v : Version} (hv : v.IsValid) : kindOf v.name = .inr v := by
  rw [kindOf, name, String.toList_ofList, ofText?_text hv]

theorem kindOf_of_not_isName {s : String} (h : ¬ IsName s) : kindOf s = .inl s.toList := by
  rw [isName_iff, Option.not_isSome_iff_eq_none] at h
  rw [kindOf, h]

theorem eq_of_kindOf {s t : String} (h : kindOf s = kindOf t) : s = t := by
  rw [kindOf, kindOf] at h
  cases hv : ofText? s.toList <;> cases hw : ofText? t.toList <;> rw [hv, hw] at h
  case none.none => exact String.toList_inj.1 (Sum.inl.inj h)
  case some.some v w =>
    obtain rfl := Sum.inr.inj h
    rw [← String.toList_inj, ← (isValid_of_ofText? hv).2, (isValid_of_ofText? hw).2]
  all_goals cases h

end Version

theorem compareVersionNames_eq_compareBy : compareVersionNames =
    compareBy (compareSum compareText Version.compare) Version.kindOf := by
  funext a b
  rw [compareVersionNames, compareBy, Version.kindOf, Version.kindOf]
  cases Version.ofText? a.toList <;> cases Version.ofText? b.toList <;> rfl

instance : Std.TransCmp compareVersionNames := compareVersionNames_eq_compareBy ▸ inferInstance

instance : Std.LawfulEqCmp compareVersionNames :=
  compareVersionNames_eq_compareBy ▸ lawfulEqCmp_compareBy fun _ _ => Version.eq_of_kindOf

theorem compareVersionNames_swap (a b : String) :
    compareVersionNames a b = (compareVersionNames b a).swap := Std.OrientedCmp.eq_swap

theorem compareVersionNames_self (a : String) : compareVersionNames a a = .eq :=
  Std.ReflCmp.compare_self

/-- The names of versions are totally ordered, and no two of them are equal.  A
name that is no version comes before every version; such names go by their text,
and versions by their release numbers, their pre-releases and their build
metadata. -/
theorem compareVersionNames_totalOrder :
    (∀ a b : String, compareVersionNames a b = (compareVersionNames b a).swap) ∧
    (∀ a b c : String, (compareVersionNames a b).isLE = true →
      (compareVersionNames b c).isLE = true → (compareVersionNames a c).isLE = true) ∧
    (∀ a b : String, compareVersionNames a b = .eq ↔ a = b) ∧
    (∀ a b : String, Version.IsName a → ¬ Version.IsName b → compareVersionNames a b = .gt) ∧
    (∀ v w : Version, v.IsValid → w.IsValid → compareVersionNames v.name w.name = v.compare w) ∧
    (∀ a b : String, ¬ Version.IsName a → ¬ Version.IsName b →
      compareVersionNames a b = compare a b) := by
  refine ⟨fun a b => Std.OrientedCmp.eq_swap, fun a b c => Std.TransCmp.isLE_trans,
    fun a b => Std.LawfulEqCmp.compare_eq_iff_eq, ?_, ?_, ?_⟩
  · rintro a b ⟨v, hv, rfl⟩ hb
    rw [compareVersionNames_eq_compareBy, compareBy, Version.kindOf_name hv,
      Version.kindOf_of_not_isName hb, compareSum]
  · intro v w hv hw
    rw [compareVersionNames_eq_compareBy, compareBy, Version.kindOf_name hv,
      Version.kindOf_name hw, compareSum]
  · intro a b ha hb
    rw [compareVersionNames_eq_compareBy, compareBy, Version.kindOf_of_not_isName ha,
      Version.kindOf_of_not_isName hb, compareSum, compareText_eq_compareBy, compareBy,
      String.ofList_toList, String.ofList_toList]

/-- Two versions that differ in the zeros of their build metadata only. -/
def paddedBuild : Version := ⟨9, 0, 100, [['r', 'c'], ['1']], [['0', '1']]⟩

def plainBuild : Version := ⟨9, 0, 100, [['r', 'c'], ['1']], [['1']]⟩

theorem compareVersionNames_totalOrder_previews :
    Version.IsName "9.0.100-preview.2" ∧ ¬ Version.IsName "8.0" ∧ ¬ Version.IsName "latest" ∧
      compareVersionNames "9.0.100-preview.2" "latest" = .gt ∧
      (compareVersionNames "8.0" "9.0.100-preview.10").isLE = true ∧
      compareVersionNames "8.0" "latest" = compare "8.0" "latest" ∧
      compareVersionNames paddedBuild.name plainBuild.name = paddedBuild.compare plainBuild := by
  have hversion : Version.IsName "9.0.100-preview.2" := by decide
  have hshort : ¬ Version.IsName "8.0" := by decide
  have hword : ¬ Version.IsName "latest" := by decide
  have hbelow : (compareVersionNames "8.0" "9.0.100-preview.2").isLE = true := by decide
  have hnext : (compareVersionNames "9.0.100-preview.2" "9.0.100-preview.10").isLE = true := by
    decide
  have hpadded : Version.ofText? paddedBuild.text = some paddedBuild := by decide
  have hplain : Version.ofText? plainBuild.text = some plainBuild := by decide
  obtain ⟨-, htrans, -, hlast, hversions, htexts⟩ := compareVersionNames_totalOrder
  exact ⟨hversion, hshort, hword, hlast _ _ hversion hword, htrans _ _ _ hbelow hnext,
    htexts _ _ hshort hword,
    hversions _ _ (Version.isValid_of_ofText? hpadded).1 (Version.isValid_of_ofText? hplain).1⟩

end ResourceAudit
