import ResourceAudit.Proofs.Documentation.TypeExpr

/-!
# ResourceAudit.Proofs.Documentation.Brackets

Brackets in the names of types.  A name has the brackets and the commas of its type
where the type has them, if brackets of all kinds count alike (`bracketsAfter_typeNameOf`):
this holds of any text, also of one whose parts are cut in the middle.  Texts with all
brackets closed and all commas inside can be told apart when they stand in a list with
commas between them (`intercalate_inj`).
-/

namespace ResourceAudit.Documentation

open ResourceAudit.Text

/-! ## open brackets -/

/-- The number of open brackets behind a character; none if it closes a bracket that is
not open, or is a comma outside of all brackets. -/
def bracketStep (depth : Nat) (c : Char) : Option Nat :=
  if c ∈ "<([\x7b".toList then some (depth + 1)
  else if depth = 0 ∧ c ∈ ",>)]\x7d".toList then none
  else if c ∈ ">)]\x7d".toList then some (depth - 1)
  else some depth

/-- The number of open brackets behind a text. -/
def bracketsAfter (depth : Nat) (s : List Char) : Option Nat := s.foldlM bracketStep depth

/-- Having all brackets closed, and commas only inside brackets. -/
def IsClosed (s : List Char) : Prop := bracketsAfter 0 s = some 0

instance (s : List Char) : Decidable (IsClosed s) := inferInstanceAs (Decidable (_ = _))

theorem bracketsAfter_cons (depth : Nat) (c : Char) (s : List Char) :
    bracketsAfter depth (c :: s) = (bracketStep depth c).bind (bracketsAfter · s) := rfl

theorem bracketsAfter_append (depth : Nat) (s t : List Char) :
    bracketsAfter depth (s ++ t) = (bracketsAfter depth s).bind (bracketsAfter · t) :=
  List.foldlM_append

/-- Texts without brackets and commas open and close nothing. -/
theorem bracketsAfter_of_forall {s : List Char} (h : ∀ c ∈ s, c ∉ ",<>()[]\x7b\x7d".toList)
    (depth : Nat) : bracketsAfter depth s = some depth := by
  have hopening : ∀ c ∈ "<([\x7b".toList, c ∈ ",<>()[]\x7b\x7d".toList :=
    List.all_iff_forall_prop.1 rfl
  have hclosing : ∀ c ∈ ">)]\x7d".toList, c ∈ ",<>()[]\x7b\x7d".toList :=
    List.all_iff_forall_prop.1 rfl
  have hcomma : ∀ c ∈ ",>)]\x7d".toList, c ∈ ",<>()[]\x7b\x7d".toList :=
    List.all_iff_forall_prop.1 rfl
  induction s with
  | nil => rfl
  | cons c s ih =>
    rw [List.forall_mem_cons] at h
    have hstep : bracketStep depth c = some depth := by
      rw [bracketStep, if_neg fun hc => h.1 (hopening c hc), if_neg fun hc => h.1 (hcomma c hc.2),
        if_neg fun hc => h.1 (hclosing c hc)]
    rw [bracketsAfter_cons, hstep]
    exact ih h.2

theorem bracketsAfter_of_isNameText {s : List Char} (h : IsNameText s) (depth : Nat) :
    bracketsAfter depth s = some depth := by
  have hmarks : ∀ c ∈ ",<>()[]\x7b\x7d".toList, c ∈ "<>()[]\x7b\x7d,?:".toList :=
    List.all_iff_forall_prop.1 rfl
  exact bracketsAfter_of_forall (fun c hc hmark => h.mark_not_mem (hmarks c hmark) hc) depth

/-- White space does not matter. -/
theorem bracketsAfter_squeeze (depth : Nat) (s : List Char) :
    bracketsAfter depth (squeeze s) = bracketsAfter depth s := by
  induction s generalizing depth with
  | nil => rfl
  | cons c s ih =>
    cases hc : isBlank c with
    | false =>
      have hsqueeze : squeeze (c :: s) = c :: squeeze s := by simp [squeeze, hc]
      rw [hsqueeze, bracketsAfter_cons, bracketsAfter_cons]
      exact congrArg _ (funext fun depth => ih depth)
    | true =>
      have hsqueeze : squeeze (c :: s) = squeeze s := by simp [squeeze, hc]
      have hmarks : ∀ c ∈ ",<>()[]\x7b\x7d".toList, isBlank c = false :=
        List.all_iff_forall_prop.1 rfl
      have hneutral : bracketsAfter depth [c] = some depth := by
        refine bracketsAfter_of_forall (List.forall_mem_singleton.2 fun hmark => ?_) depth
        simp [hmarks c hmark] at hc
      rw [hsqueeze, ih, ← List.singleton_append, bracketsAfter_append, hneutral]
      rfl

/-! ## names of types -/

/-- Pieces that have the same brackets have them in a list as well. -/
theorem bracketsAfter_intercalate_map {f : List Char → List Char} {parts : List (List Char)}
    (h : ∀ part ∈ parts, ∀ depth, bracketsAfter depth (f part) = bracketsAfter depth part)
    (depth : Nat) : bracketsAfter depth (List.intercalate [','] (parts.map f)) =
      bracketsAfter depth (List.intercalate [','] parts) := by
  induction parts generalizing depth with
  | nil => rfl
  | cons part parts ih =>
    rw [List.forall_mem_cons] at h
    cases parts with
    | nil => simpa using h.1 depth
    | cons next parts =>
      rw [List.map_cons, List.map_cons, List.intercalate_cons_cons, List.intercalate_cons_cons,
        ← List.map_cons, bracketsAfter_append, bracketsAfter_append, bracketsAfter_append,
        bracketsAfter_append, h.1]
      exact congrArg _ (funext fun depth => ih h.2 depth)

theorem bracketsAfter_withoutGlobal (depth : Nat) (s : List Char) :
    bracketsAfter depth (withoutGlobal s) = bracketsAfter depth s := by
  by_cases hglobal : "global::".toList <+: s
  · obtain ⟨t, rfl⟩ := hglobal
    have halias : bracketsAfter depth "global::".toList = some depth :=
      bracketsAfter_of_forall (List.all_iff_forall_prop.1 rfl) depth
    rw [withoutGlobal_global, bracketsAfter_append, halias]
    rfl
  · rw [withoutGlobal_eq_self hglobal]

/-- A keyword and its name are names. -/
theorem bracketsAfter_keywordType? (depth : Nat) (s : List Char) :
    bracketsAfter depth ((keywordType? s).elim s String.toList) = bracketsAfter depth s := by
  cases h : keywordType? s with
  | none => rfl
  | some t =>
    obtain ⟨k, rfl⟩ := TypeKeyword.exists_word_of_keywordType? h
    obtain rfl : k.systemName = t := Option.some_inj.1 (k.keywordType?_word.symm.trans h)
    exact (bracketsAfter_of_isNameText k.isNameText_systemName depth).trans
      (bracketsAfter_of_isNameText k.isNameText_word depth).symm

theorem bracketsAfter_form {s : List Char} {form : TypeForm}
    (h : TypeForm.of (withoutGlobal s) = form) (depth : Nat) :
    bracketsAfter depth s = bracketsAfter depth form.text := by
  rw [← h, TypeForm.text_of, bracketsAfter_withoutGlobal]

theorem bracketsAfter_nullable (depth : Nat) (value : List Char) :
    bracketsAfter depth (value ++ ['?']) = bracketsAfter depth value := by
  have hmark : ∀ depth, bracketsAfter depth ['?'] = some depth :=
    bracketsAfter_of_forall (List.all_iff_forall_prop.1 rfl)
  simp [bracketsAfter_append, hmark]

/-- A pair of braces around a text that opens and closes nothing. -/
theorem bracketsAfter_nullableName {s : List Char}
    (h : ∀ depth, bracketsAfter depth s = some depth) (depth : Nat) :
    bracketsAfter depth ("System.Nullable\x7b".toList ++ s ++ ['}']) = some depth := by
  have hsplit : "System.Nullable\x7b".toList = "System.Nullable".toList ++ ['{'] := rfl
  have hfront : bracketsAfter depth "System.Nullable".toList = some depth :=
    bracketsAfter_of_forall (List.all_iff_forall_prop.1 rfl) depth
  have hopening : bracketsAfter depth ['{'] = some (depth + 1) := rfl
  have hclosing : bracketsAfter (depth + 1) ['}'] = some depth := rfl
  simp only [hsplit, bracketsAfter_append, hfront, hopening, h, hclosing, Option.bind_some]

/-- The name of a type has the brackets of the type. -/
theorem bracketsAfter_typeNameOf (s : List Char) (depth : Nat) :
    bracketsAfter depth (typeNameOf s) = bracketsAfter depth s := by
  induction s using typeNameOf.induct generalizing depth with
  | case1 s element hform ih =>
    rw [typeNameOf_eq, hform, TypeForm.name, bracketsAfter_form hform, TypeForm.text,
      bracketsAfter_append, bracketsAfter_append, ih]
  | case2 s value hform hvalue ih =>
    rw [typeNameOf_eq, hform, TypeForm.name, if_pos hvalue, bracketsAfter_form hform,
      TypeForm.text, bracketsAfter_nullable]
    obtain ⟨k, rfl⟩ := TypeKeyword.exists_word_of_isValueKeyword hvalue
    have hword : ∀ depth, bracketsAfter depth k.word.toList = some depth :=
      bracketsAfter_of_isNameText k.isNameText_word
    rw [hword, bracketsAfter_nullableName fun depth => (ih depth).trans (hword depth)]
  | case3 s value hform hvalue ih =>
    rw [typeNameOf_eq, hform, TypeForm.name, if_neg hvalue, bracketsAfter_form hform,
      TypeForm.text, bracketsAfter_nullable, ih]
  | case4 s name inside hform ih =>
    have hopening : ∀ depth, bracketsAfter depth ['{'] = bracketsAfter depth ['<'] := fun _ => rfl
    have hclosing : ∀ depth, bracketsAfter depth ['}'] = bracketsAfter depth ['>'] := by
      rintro (_ | _) <;> rfl
    have hnames : ∀ depth,
        bracketsAfter depth (List.intercalate [','] ((arguments inside).map typeNameOf)) =
          bracketsAfter depth inside := fun depth => by
      rw [bracketsAfter_intercalate_map ih, arguments, intercalate_argumentsFrom]
    have htext : name ++ '<' :: (inside ++ ['>']) = name ++ ['<'] ++ inside ++ ['>'] := by simp
    rw [typeNameOf_eq, hform, TypeForm.name, bracketsAfter_form hform, TypeForm.text, htext]
    simp only [bracketsAfter_append, hopening, hclosing, hnames]
  | case5 s name hform =>
    rw [typeNameOf_eq, hform, TypeForm.name, bracketsAfter_keywordType?,
      bracketsAfter_form hform, TypeForm.text]

/-- What is closed in a type is closed in its name. -/
theorem isClosed_typeName {written : String} (h : IsClosed written.toList) :
    IsClosed (typeName written).toList := by
  rwa [IsClosed, typeName, String.toList_ofList, bracketsAfter_typeNameOf, bracketsAfter_squeeze]

/-! ## lists of closed texts -/

section Lists

variable {s t u v : List Char}

theorem IsClosed.append (hs : IsClosed s) (ht : IsClosed t) : IsClosed (s ++ t) := by
  rw [IsClosed, bracketsAfter_append, hs]
  exact ht

/-- No closed text goes on from another one with a comma. -/
theorem IsClosed.comma_ne (hs : IsClosed s) (ht : IsClosed t) : s ++ ',' :: u ≠ t := by
  rintro rfl
  rw [IsClosed, bracketsAfter_append, hs] at ht
  cases ht

/-- A comma ends a closed text in one way only. -/
theorem IsClosed.comma_inj (hs : IsClosed s) (ht : IsClosed t) (h : s ++ ',' :: u = t ++ ',' :: v) :
    s = t ∧ u = v := by
  rcases List.append_eq_append_iff.1 h with ⟨front, rfl, hfront⟩ | ⟨front, rfl, hfront⟩
  · cases front with
    | nil => simpa using hfront
    | cons c front =>
      obtain ⟨rfl, -⟩ := List.cons_eq_cons.1 hfront
      exact absurd rfl (hs.comma_ne ht)
  · cases front with
    | nil => simpa [eq_comm] using hfront
    | cons c front =>
      obtain ⟨rfl, -⟩ := List.cons_eq_cons.1 hfront
      exact absurd rfl (ht.comma_ne hs)

/-- Lists of closed texts are told apart by their texts with commas between them. -/
theorem intercalate_inj {ss ts : List (List Char)} (hss : ss ≠ []) (hts : ts ≠ [])
    (hs : ∀ s ∈ ss, IsClosed s) (ht : ∀ t ∈ ts, IsClosed t)
    (h : List.intercalate [','] ss = List.intercalate [','] ts) : ss = ts := by
  induction ss generalizing ts with
  | nil => exact absurd rfl hss
  | cons s ss ih =>
    obtain ⟨t, ts, rfl⟩ := List.exists_cons_of_ne_nil hts
    rw [List.forall_mem_cons] at hs ht
    cases ss with
    | nil =>
      cases ts with
      | nil => simpa using h
      | cons next ts =>
        rw [List.intercalate_singleton, List.intercalate_cons_cons, List.append_assoc] at h
        exact absurd h.symm (ht.1.comma_ne hs.1)
    | cons next ss =>
      cases ts with
      | nil =>
        rw [List.intercalate_singleton, List.intercalate_cons_cons, List.append_assoc] at h
        exact absurd h (hs.1.comma_ne ht.1)
      | cons other ts =>
        rw [List.intercalate_cons_cons, List.intercalate_cons_cons, List.append_assoc,
          List.append_assoc] at h
        obtain ⟨rfl, hrest⟩ := hs.1.comma_inj ht.1 h
        rw [ih (List.cons_ne_nil _ _) (List.cons_ne_nil _ _) hs.2 ht.2 hrest]

end Lists

end ResourceAudit.Documentation
