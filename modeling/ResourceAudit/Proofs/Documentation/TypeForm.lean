import ResourceAudit.Documentation.TypeName
import Mathlib.Data.List.Infix
import Mathlib.Data.List.TakeWhile
import ResourceAudit.Proofs.Text.Fields

/-!
# ResourceAudit.Proofs.Documentation.TypeForm

The name of a type from the text of the type.  A text is an array, a nullable or a
generic type by its last characters, and `TypeForm.text` is what it was taken apart
from.  An argument list is cut at its outer commas: the arguments written one after
the other with commas are the list again (`intercalate_argumentsFrom`), and a list
that is written from texts which no comma and no bracket cuts is cut into these texts
(`arguments_intercalate`).
-/

namespace ResourceAudit.Documentation

open ResourceAudit.Text

/-! ## argument lists -/

/-- Pieces with more text in front of the first one. -/
def extendFirst (front : List Char) : List (List Char) → List (List Char)
  | [] => [front]
  | part :: parts => (front ++ part) :: parts

theorem extendFirst_append (s t : List Char) (parts : List (List Char)) :
    extendFirst (s ++ t) parts = extendFirst s (extendFirst t parts) := by
  cases parts with
  | nil => rfl
  | cons part parts => rw [extendFirst, extendFirst, extendFirst, List.append_assoc]

theorem argumentsFrom_ne_nil (depth : Nat) (s : List Char) : argumentsFrom depth s ≠ [] := by
  fun_cases argumentsFrom depth s <;> exact List.cons_ne_nil _ _

theorem extendFirst_nil_argumentsFrom (depth : Nat) (s : List Char) :
    extendFirst [] (argumentsFrom depth s) = argumentsFrom depth s := by
  cases h : argumentsFrom depth s with
  | nil => exact absurd h (argumentsFrom_ne_nil depth s)
  | cons part parts => rfl

theorem argumentsFrom_comma (s : List Char) :
    argumentsFrom 0 (',' :: s) = [] :: argumentsFrom 0 s := by
  rw [argumentsFrom, if_pos ⟨rfl, rfl⟩]

/-- A character that does not separate arguments is part of one. -/
theorem argumentsFrom_cons {c : Char} {depth : Nat} (h : ¬(c = ',' ∧ depth = 0)) (s : List Char) :
    argumentsFrom depth (c :: s) =
      extendFirst [c] (argumentsFrom
        (if c = '<' ∨ c = '(' ∨ c = '[' then depth + 1
          else if c = '>' ∨ c = ')' ∨ c = ']' then depth - 1 else depth) s) := by
  rw [argumentsFrom, if_neg h]
  dsimp only
  generalize (if c = '<' ∨ c = '(' ∨ c = '[' then depth + 1
    else if c = '>' ∨ c = ')' ∨ c = ']' then depth - 1 else depth) = depth'
  cases argumentsFrom depth' s <;> rfl

/-- The arguments of a list with commas between them are the list. -/
theorem intercalate_argumentsFrom (depth : Nat) (s : List Char) :
    List.intercalate [','] (argumentsFrom depth s) = s := by
  induction s generalizing depth with
  | nil => rfl
  | cons c rest ih =>
    by_cases h : c = ',' ∧ depth = 0
    · obtain ⟨rfl, rfl⟩ := h
      rw [argumentsFrom_comma, List.intercalate_cons_of_ne_nil (argumentsFrom_ne_nil 0 rest), ih]
      rfl
    · have hfirst : ∀ parts : List (List Char), parts ≠ [] →
          List.intercalate [','] (extendFirst [c] parts) = c :: List.intercalate [','] parts := by
        intro parts hparts
        obtain ⟨part, parts, rfl⟩ := List.exists_cons_of_ne_nil hparts
        cases parts <;> simp [extendFirst]
      rw [argumentsFrom_cons h, hfirst _ (argumentsFrom_ne_nil _ rest), ih]

theorem mem_intercalate_of_mem {c : Char} {part : List Char} {parts : List (List Char)}
    (hpart : part ∈ parts) (hc : c ∈ part) : c ∈ List.intercalate [','] parts := by
  induction parts with
  | nil => cases hpart
  | cons first parts ih =>
    cases parts with
    | nil =>
      obtain rfl := List.mem_singleton.1 hpart
      simpa using hc
    | cons next parts =>
      rw [List.intercalate_cons_cons]
      rcases List.mem_cons.1 hpart with rfl | hpart
      · exact List.mem_append_left _ (List.mem_append_left _ hc)
      · exact List.mem_append_right _ (ih hpart)

/-- Texts with commas between them, in brackets, if there are any. -/
def enclosed (opening closing : Char) : List (List Char) → List Char
  | [] => []
  | parts => opening :: (List.intercalate [','] parts ++ [closing])

theorem enclosed_cons (opening closing : Char) (part : List Char) (parts : List (List Char)) :
    enclosed opening closing (part :: parts) =
      opening :: (List.intercalate [','] (part :: parts) ++ [closing]) := rfl

theorem mem_enclosed_of_mem {opening closing c : Char} {part : List Char}
    {parts : List (List Char)} (hpart : part ∈ parts) (hc : c ∈ part) :
    c ∈ enclosed opening closing parts := by
  obtain ⟨first, rest, rfl⟩ := List.exists_cons_of_ne_nil (List.ne_nil_of_mem hpart)
  rw [enclosed_cons]
  exact List.mem_cons_of_mem _ (List.mem_append_left _ (mem_intercalate_of_mem hpart hc))

theorem forall_mem_enclosed {p : Char → Prop} {opening closing : Char} (hopening : p opening)
    (hclosing : p closing) (hcomma : p ',') {parts : List (List Char)}
    (h : ∀ part ∈ parts, ∀ c ∈ part, p c) : ∀ c ∈ enclosed opening closing parts, p c := by
  cases parts with
  | nil => exact List.forall_mem_nil p
  | cons part parts =>
    rw [enclosed_cons, List.forall_mem_cons, List.forall_mem_append, forall_mem_intercalate hcomma,
      List.forall_mem_singleton]
    exact ⟨hopening, h, hclosing⟩

/-- Being part of one argument wherever it stands, with its brackets in pairs. -/
def IsWhole (s : List Char) : Prop :=
  ∀ depth t, argumentsFrom depth (s ++ t) = extendFirst s (argumentsFrom depth t)

theorem IsWhole.append {s t : List Char} (hs : IsWhole s) (ht : IsWhole t) : IsWhole (s ++ t) := by
  intro depth u
  rw [List.append_assoc, hs, ht, extendFirst_append]

/-- A text without commas and brackets is whole. -/
theorem isWhole_of_forall {s : List Char} (h : ∀ c ∈ s, c ∉ ",<>()[]".toList) : IsWhole s := by
  intro depth t
  induction s with
  | nil => exact (extendFirst_nil_argumentsFrom depth t).symm
  | cons c s ih =>
    rw [List.forall_mem_cons] at h
    have hc : c ≠ ',' ∧ c ≠ '<' ∧ c ≠ '>' ∧ c ≠ '(' ∧ c ≠ ')' ∧ c ≠ '[' ∧ c ≠ ']' := by
      simpa using h.1
    rw [List.cons_append, argumentsFrom_cons (fun hcomma => hc.1 hcomma.1), if_neg (by simp [hc]),
      if_neg (by simp [hc]), ih h.2, ← extendFirst_append, List.singleton_append]

/-- An empty pair of square brackets is whole. -/
theorem isWhole_square : IsWhole "[]".toList := fun depth t => by
  change argumentsFrom depth ('[' :: ']' :: t) = _
  rw [argumentsFrom_cons (by simp), argumentsFrom_cons (by simp), ← extendFirst_append]
  rfl

/-- Within brackets, whole texts with commas between them are part of one argument. -/
theorem argumentsFrom_intercalate {parts : List (List Char)} (h : ∀ part ∈ parts, IsWhole part)
    (depth : Nat) (t : List Char) :
    argumentsFrom (depth + 1) (List.intercalate [','] parts ++ t) =
      extendFirst (List.intercalate [','] parts) (argumentsFrom (depth + 1) t) := by
  induction parts with
  | nil => exact (extendFirst_nil_argumentsFrom _ t).symm
  | cons part parts ih =>
    rw [List.forall_mem_cons] at h
    cases parts with
    | nil =>
      rw [List.intercalate_singleton]
      exact h.1 _ t
    | cons next parts =>
      have hcomma : ∀ u, argumentsFrom (depth + 1) (',' :: u) =
          extendFirst [','] (argumentsFrom (depth + 1) u) := fun u => argumentsFrom_cons (by simp) u
      rw [List.intercalate_cons_cons, List.append_assoc, List.append_assoc, h.1,
        List.singleton_append, hcomma, ih h.2, ← extendFirst_append, ← extendFirst_append]

/-- A list of whole texts in angle brackets is whole. -/
theorem isWhole_enclosed {parts : List (List Char)} (h : ∀ part ∈ parts, IsWhole part) :
    IsWhole (enclosed '<' '>' parts) := by
  cases parts with
  | nil => exact isWhole_of_forall (List.forall_mem_nil _)
  | cons part parts =>
    intro depth t
    rw [enclosed_cons, List.cons_append, argumentsFrom_cons (by simp), if_pos (.inl rfl),
      List.append_assoc, argumentsFrom_intercalate h, List.singleton_append,
      argumentsFrom_cons (by simp), ← extendFirst_append, ← extendFirst_append]
    rfl

/-- A list that is written from whole texts is cut into these. -/
theorem arguments_intercalate {parts : List (List Char)} (hne : parts ≠ [])
    (h : ∀ part ∈ parts, IsWhole part) : arguments (List.intercalate [','] parts) = parts := by
  induction parts with
  | nil => exact absurd rfl hne
  | cons part parts ih =>
    rw [List.forall_mem_cons] at h
    cases parts with
    | nil =>
      have hpart := h.1 0 []
      rw [List.append_nil] at hpart
      rw [List.intercalate_singleton, arguments, hpart, argumentsFrom, extendFirst, List.append_nil]
    | cons next parts =>
      rw [List.intercalate_cons_cons, List.append_assoc, arguments, h.1, List.singleton_append,
        argumentsFrom_comma, extendFirst, List.append_nil, ← arguments,
        ih (List.cons_ne_nil _ _) h.2]

/-! ## forms -/

namespace TypeForm

/-- The text that has a form. -/
def text : TypeForm → List Char
  | array element => element ++ "[]".toList
  | nullable value => value ++ ['?']
  | generic name inside => name ++ '<' :: (inside ++ ['>'])
  | plain name => name

theorem of_array (element : List Char) : of (element ++ "[]".toList) = array element := by
  simp [of]

theorem of_nullable (value : List Char) : of (value ++ ['?']) = nullable value := by
  simp [of]

theorem of_generic {name : List Char} (h : '<' ∉ name) (inside : List Char) :
    of (name ++ '<' :: (inside ++ ['>'])) = generic name inside := by
  have hname : (name ++ '<' :: (inside ++ ['>'])).takeWhile (· != '<') = name := by
    have hfront : ∀ c ∈ name, (c != '<') = true := fun c hc => by
      rw [bne_iff_ne]
      rintro rfl
      exact h hc
    rw [List.takeWhile_append_of_pos hfront]
    simp
  have hlast : (name ++ '<' :: (inside ++ ['>'])).reverse =
      '>' :: (name ++ '<' :: inside).reverse := by simp
  rw [of, hlast]
  simp only [hname, List.drop_left, List.dropLast_concat]

/-- A text that ends in another character is plain. -/
theorem of_plain {s : List Char} (h : ∀ c ∈ s.getLast?, c ∉ "]?>".toList) : of s = plain s := by
  rw [← List.head?_reverse] at h
  rw [of]
  split
  · next hs => simp [hs] at h
  · next hs => simp [hs] at h
  · next hs => simp [hs] at h
  · rfl

/-- A text that ends in a closing bracket goes on behind its first opening one. -/
theorem exists_inside {s front inside : List Char} {c : Char} (hs : s.reverse = '>' :: front)
    (h : s.drop (s.takeWhile (· != '<')).length = c :: inside) :
    s = s.takeWhile (· != '<') ++ '<' :: (inside.dropLast ++ ['>']) := by
  have hrest : s.dropWhile (· != '<') = c :: inside := by
    have hdrop : (s.takeWhile (· != '<') ++ s.dropWhile (· != '<')).drop
        (s.takeWhile (· != '<')).length = s.dropWhile (· != '<') := List.drop_left
    rw [List.takeWhile_append_dropWhile] at hdrop
    rw [← hdrop, h]
  generalize hname : s.takeWhile (· != '<') = name at h ⊢
  have hlt : c = '<' := by
    have hhead := List.head?_dropWhile_not (· != '<') s
    rw [hrest] at hhead
    simpa using hhead
  subst hlt
  have hsplit : s = name ++ '<' :: inside := by
    rw [← hname, ← hrest, List.takeWhile_append_dropWhile]
  have hlast : inside.getLast? = some '>' := by
    have hend : s.getLast? = some '>' := by rw [← List.head?_reverse, hs]; rfl
    rw [hsplit, List.getLast?_append_of_ne_nil _ (List.cons_ne_nil _ _), List.getLast?_cons] at hend
    cases hinside : inside.getLast? with
    | none => simp [hinside] at hend
    | some d => simpa [hinside] using hend
  rw [List.dropLast_append_getLast? _ hlast]
  exact hsplit

/-- A form is that of its text. -/
theorem text_of (s : List Char) : (of s).text = s := by
  rw [of]
  split
  · next hs => rw [← s.reverse_reverse, hs]; simp [text]
  · next hs => rw [← s.reverse_reverse, hs]; simp [text]
  · next front hs =>
    dsimp only
    split
    · rfl
    · next hdrop => exact (exists_inside hs hdrop).symm
  · rfl

end TypeForm

/-! ## names -/

/-- The name of a type that has a form. -/
def TypeForm.name : TypeForm → List Char
  | array element => typeNameOf element ++ "[]".toList
  | nullable value =>
    if isValueKeyword value then "System.Nullable\x7b".toList ++ typeNameOf value ++ ['}']
    else typeNameOf value
  | generic name inside =>
    name ++ ['{'] ++ List.intercalate [','] ((arguments inside).map typeNameOf) ++ ['}']
  | plain name => (keywordType? name).elim name String.toList

/-- The name of a type is that of its form. -/
theorem typeNameOf_eq (s : List Char) : typeNameOf s = (TypeForm.of (withoutGlobal s)).name := by
  rw [typeNameOf]
  split
  · next h => rw [h, TypeForm.name]
  · next h => rw [h, TypeForm.name]
  · next h =>
    rw [h, TypeForm.name]
    dsimp only
    rw [List.map_subtype (fun _ _ => rfl), List.unattach_attach]
  · next h => rw [h, TypeForm.name]

end ResourceAudit.Documentation
