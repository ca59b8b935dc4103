import ResourceAudit.Proofs.Documentation.TypeForm
import ResourceAudit.Proofs.Text.Cut
import ResourceAudit.Proofs.Text.Trim
import Mathlib.Data.Bool.AllAny

/-!
# ResourceAudit.Proofs.Documentation.TypeExpr

Type expressions and their names.  A type expression is a keyword, a qualified name
with or without type arguments, an array or a nullable type, and it is written as
tokens with any white space between them.  Its name follows its structure, and the
name that is computed from the text, which is never parsed, is that name
(`TypeExpr.typeName_spread`).
-/

namespace ResourceAudit.Documentation

open ResourceAudit.Text

/-! ## tokens -/

/-- White space of any length. -/
structure Blank where
  chars : List Char
  isBlankText_chars : isBlankText chars = true

/-- Tokens with white space before each of them and behind the last one. -/
def spread (gap : Nat → Blank) : List (List Char) → List Char
  | [] => (gap 0).chars
  | token :: tokens => (gap 0).chars ++ token ++ spread (fun i => gap (i + 1)) tokens

/-- Without white space, nothing is left but the tokens. -/
theorem squeeze_spread {tokens : List (List Char)}
    (h : ∀ c ∈ tokens.flatten, isBlank c = false) (gap : Nat → Blank) :
    squeeze (spread gap tokens) = tokens.flatten := by
  induction tokens generalizing gap with
  | nil => exact squeeze_eq_nil (gap 0).isBlankText_chars
  | cons token tokens ih =>
    rw [List.flatten_cons, List.forall_mem_append] at h
    have htoken : squeeze token = token := List.filter_eq_self.2 fun c hc => by simp [h.1 c hc]
    rw [spread, squeeze_append, squeeze_append, squeeze_eq_nil (gap 0).isBlankText_chars, htoken,
      ih h.2]
    rfl

/-- The tokens of a list in angle brackets, if there is anything in it. -/
def listTokens : List (List (List Char)) → List (List Char)
  | [] => []
  | first :: rest => ['<'] :: first ++ rest.flatMap ([','] :: ·) ++ [['>']]

theorem flatten_listTokens (parts : List (List (List Char))) :
    (listTokens parts).flatten = enclosed '<' '>' (parts.map List.flatten) := by
  cases parts with
  | nil => rfl
  | cons first rest =>
    have hrest : first.flatten ++ (rest.flatMap ([','] :: ·)).flatten =
        List.intercalate [','] ((first :: rest).map List.flatten) := by
      induction rest generalizing first with
      | nil => simp
      | cons next rest ih =>
        rw [List.map_cons, List.map_cons, List.intercalate_cons_cons, ← List.map_cons, ← ih]
        simp
    rw [List.map_cons, enclosed_cons, ← List.map_cons, ← hrest, listTokens]
    simp

/-! ## keywords -/

/-- The keywords that are types. -/
inductive TypeKeyword where
  | object | string | bool | byte | sbyte | char | decimal | double | float
  | int | uint | long | ulong | short | ushort | nint | nuint | void
  deriving DecidableEq, Repr

namespace TypeKeyword

def all : List TypeKeyword :=
  [object, string, bool, byte, sbyte, char, decimal, double, float, int, uint, long, ulong, short,
    ushort, nint, nuint, void]

def word : TypeKeyword → String
  | object => "object"
  | string => "string"
  | bool => "bool"
  | byte => "byte"
  | sbyte => "sbyte"
  | char => "char"
  | decimal => "decimal"
  | double => "double"
  | float => "float"
  | int => "int"
  | uint => "uint"
  | long => "long"
  | ulong => "ulong"
  | short => "short"
  | ushort => "ushort"
  | nint => "nint"
  | nuint => "nuint"
  | void => "void"

/-- The name of the type that a keyword is an alias of. -/
def systemName : TypeKeyword → String
  | object => "System.Object"
  | string => "System.String"
  | bool => "System.Boolean"
  | byte => "System.Byte"
  | sbyte => "System.SByte"
  | char => "System.Char"
  | decimal => "System.Decimal"
  | double => "System.Double"
  | float => "System.Single"
  | int => "System.Int32"
  | uint => "System.UInt32"
  | long => "System.Int64"
  | ulong => "System.UInt64"
  | short => "System.Int16"
  | ushort => "System.UInt16"
  | nint => "System.IntPtr"
  | nuint => "System.UIntPtr"
  | void => "System.Void"

/-- Whether `?` behind the keyword makes a type of its own. -/
def isValue (k : TypeKeyword) : Bool := k ≠ object && k ≠ string

theorem keywordType?_word (k : TypeKeyword) : keywordType? k.word.toList = some k.systemName := by
  cases k <;> rfl

/-- The words that are read as keywords are those of the keywords. -/
theorem exists_word_of_keywordType? {name : List Char} {s : String}
    (h : keywordType? name = some s) : ∃ k : TypeKeyword, k.word.toList = name := by
  suffices hword : ∃ k ∈ all, k.word = String.ofList name by
    obtain ⟨k, -, hk⟩ := hword
    exact ⟨k, by rw [hk, String.toList_ofList]⟩
  rw [keywordType?] at h
  split at h
  case h_19 => cases h
  all_goals
    next hword =>
      rw [hword]
      decide

theorem keywordType?_eq_none {name : List Char} (h : ∀ k : TypeKeyword, k.word.toList ≠ name) :
    keywordType? name = none := by
  rw [Option.eq_none_iff_forall_ne_some]
  intro s hs
  obtain ⟨k, hk⟩ := exists_word_of_keywordType? hs
  exact h k hk

theorem exists_word_of_isValueKeyword {name : List Char} (h : isValueKeyword name = true) :
    ∃ k : TypeKeyword, k.word.toList = name := by
  rw [isValueKeyword, Bool.and_eq_true, Option.isSome_iff_exists] at h
  obtain ⟨s, hs⟩ := h.2
  exact exists_word_of_keywordType? hs

theorem isValueKeyword_word (k : TypeKeyword) : isValueKeyword k.word.toList = k.isValue := by
  cases k <;> rfl

theorem isValueKeyword_eq_false {name : List Char} (h : ∀ k : TypeKeyword, k.word.toList ≠ name) :
    isValueKeyword name = false := by
  rw [isValueKeyword, keywordType?_eq_none h]
  simp

end TypeKeyword

/-! ## names -/

/-- Whether a character can be part of an identifier: it is no white space and no mark
that types are put together with. -/
def isNameChar (c : Char) : Bool := !isBlank c && !"<>()[]{},.?:".toList.contains c

/-- An identifier, of any characters that are no white space and no marks. -/
structure Identifier where
  chars : List Char
  chars_ne_nil : chars ≠ []
  isNameChar_of_mem : ∀ c ∈ chars, isNameChar c = true

/-- The tokens of identifiers with dots between them. -/
def dottedTokens (first : Identifier) (rest : List Identifier) : List (List Char) :=
  first.chars :: rest.flatMap fun id => [['.'], id.chars]

/-- A name with dots that is no keyword. -/
structure QualifiedName where
  first : Identifier
  rest : List Identifier
  word_ne : ∀ k : TypeKeyword, k.word.toList ≠ (dottedTokens first rest).flatten

/-- Being identifiers and dots, an identifier last. -/
structure IsNameText (s : List Char) : Prop where
  of_mem : ∀ c ∈ s, isNameChar c = true ∨ c = '.'
  isNameChar_getLast : ∃ c ∈ s.getLast?, isNameChar c = true

namespace IsNameText

section

variable {s : List Char} (h : IsNameText s)

include h

theorem mark_not_mem {c : Char} (hc : c ∈ "<>()[]{},?:".toList) : c ∉ s := by
  have hmarks : ∀ c ∈ "<>()[]{},?:".toList, isNameChar c = false ∧ c ≠ '.' :=
    List.all_iff_forall_prop.1 rfl
  intro hmem
  rcases h.of_mem c hmem with hname | hdot
  · simp [(hmarks c hc).1] at hname
  · exact (hmarks c hc).2 hdot

theorem isBlank_eq_false {c : Char} (hc : c ∈ s) : isBlank c = false := by
  rcases h.of_mem c hc with hname | rfl
  · simp only [isNameChar, Bool.and_eq_true, Bool.not_eq_true'] at hname
    exact hname.1
  · rfl

theorem isWhole : IsWhole s := by
  have hmarks : ∀ c ∈ ",<>()[]".toList, c ∈ "<>()[]{},?:".toList := List.all_iff_forall_prop.1 rfl
  exact isWhole_of_forall fun c hc hmark => h.mark_not_mem (hmarks c hmark) hc

theorem typeForm : TypeForm.of s = .plain s := by
  have hends : ∀ c ∈ "]?>".toList, isNameChar c = false := List.all_iff_forall_prop.1 rfl
  obtain ⟨d, hd, hname⟩ := h.isNameChar_getLast
  refine TypeForm.of_plain fun c hc hend => ?_
  obtain rfl : c = d := Option.mem_unique hc hd
  simp [hends c hend] at hname

end

end IsNameText

theorem Identifier.isNameText (id : Identifier) : IsNameText id.chars where
  of_mem c hc := .inl (id.isNameChar_of_mem c hc)
  isNameChar_getLast := by
    have hlast := List.getLast_mem id.chars_ne_nil
    exact ⟨_, List.getLast?_eq_getLast_of_ne_nil id.chars_ne_nil, id.isNameChar_of_mem _ hlast⟩

/-- More of a name behind a dot. -/
theorem IsNameText.dot {s t : List Char} (hs : IsNameText s) (ht : IsNameText t) :
    IsNameText (s ++ '.' :: t) where
  of_mem c hc := by
    rcases List.mem_append.1 hc with hc | hc
    · exact hs.of_mem c hc
    · rcases List.mem_cons.1 hc with rfl | hc
      · exact .inr rfl
      · exact ht.of_mem c hc
  isNameChar_getLast := by
    obtain ⟨c, hc, hname⟩ := ht.isNameChar_getLast
    exact ⟨c, by simp_all [List.getLast?_append, List.getLast?_cons], hname⟩

theorem isNameText_dottedTokens (first : Identifier) (rest : List Identifier) :
    IsNameText (dottedTokens first rest).flatten := by
  induction rest generalizing first with
  | nil => simpa [dottedTokens] using first.isNameText
  | cons id rest ih => simpa [dottedTokens] using first.isNameText.dot (ih id)

theorem TypeKeyword.isNameText_word (k : TypeKeyword) : IsNameText k.word.toList where
  of_mem := by cases k <;> exact List.all_iff_forall_prop.1 rfl
  isNameChar_getLast := by cases k <;> exact ⟨_, rfl, by decide⟩

theorem TypeKeyword.isNameText_systemName (k : TypeKeyword) : IsNameText k.systemName.toList where
  of_mem := by cases k <;> exact List.all_iff_forall_prop.1 rfl
  isNameChar_getLast := by cases k <;> exact ⟨_, rfl, by decide⟩

/-- A text with a mark in it is no keyword. -/
theorem keywordType?_of_mark {c : Char} {s : List Char} (hc : c ∈ "<>()[]{},?:".toList)
    (hs : c ∈ s) : keywordType? s = none :=
  TypeKeyword.keywordType?_eq_none fun k hk => k.isNameText_word.mark_not_mem hc (hk ▸ hs)

theorem isValueKeyword_of_mark {c : Char} {s : List Char} (hc : c ∈ "<>()[]{},?:".toList)
    (hs : c ∈ s) : isValueKeyword s = false := by
  rw [isValueKeyword, keywordType?_of_mark hc hs]
  simp

namespace QualifiedName

def tokens (n : QualifiedName) : List (List Char) := dottedTokens n.first n.rest

def text (n : QualifiedName) : List Char := n.tokens.flatten

theorem isNameText (n : QualifiedName) : IsNameText n.text :=
  isNameText_dottedTokens n.first n.rest

end QualifiedName

theorem isBlank_enclosed {parts : List (List Char)}
    (h : ∀ part ∈ parts, ∀ c ∈ part, isBlank c = false) :
    ∀ c ∈ enclosed '<' '>' parts, isBlank c = false :=
  forall_mem_enclosed (by decide) (by decide) (by decide) h

/-! ## the alias of the global namespace -/

theorem withoutGlobal_eq_self {s : List Char} (h : ¬ "global::".toList <+: s) :
    withoutGlobal s = s := by
  rw [← List.isPrefixOf_iff_prefix] at h
  rw [withoutGlobal, if_neg h]

theorem withoutGlobal_global (s : List Char) : withoutGlobal ("global::".toList ++ s) = s := by
  rw [withoutGlobal, if_pos (List.isPrefixOf_iff_prefix.2 (List.prefix_append _ s)), List.drop_left]

theorem global_not_isPrefix_append {s t : List Char} (hs : ¬ "global::".toList <+: s)
    (ht : ∀ c ∈ t.head?, c ∉ "global::".toList) : ¬ "global::".toList <+: s ++ t := by
  intro h
  obtain hfront | ⟨rest, hrest, hbehind⟩ := prefix_append_cases h
  · exact hs hfront
  · cases rest with
    | nil => exact hs (by rw [hrest, List.append_nil])
    | cons c rest =>
      obtain ⟨t, rfl⟩ := hbehind
      exact ht c rfl (by rw [hrest]; simp)

theorem IsNameText.global_not_isPrefix {s : List Char} (h : IsNameText s) :
    ¬ "global::".toList <+: s := fun hfront =>
  h.mark_not_mem (by decide) (hfront.subset (by decide : ':' ∈ "global::".toList))

theorem IsNameText.withoutGlobal_eq {s : List Char} (h : IsNameText s) : withoutGlobal s = s :=
  withoutGlobal_eq_self h.global_not_isPrefix

theorem IsNameText.withoutGlobal_append {s t : List Char} (hs : IsNameText s)
    (ht : ∀ c ∈ t.head?, c ∉ "global::".toList) : withoutGlobal (s ++ t) = s ++ t :=
  withoutGlobal_eq_self (global_not_isPrefix_append hs.global_not_isPrefix ht)

/-- A name with type arguments keeps its name and gets the names of the arguments. -/
theorem typeNameOf_enclosed {s : List Char} (hs : IsNameText s) {parts : List (List Char)}
    (hne : parts ≠ []) (h : ∀ part ∈ parts, IsWhole part) :
    typeNameOf (s ++ enclosed '<' '>' parts) =
      s ++ enclosed '{' '}' (parts.map typeNameOf) := by
  obtain ⟨part, parts, rfl⟩ := List.exists_cons_of_ne_nil hne
  rw [typeNameOf_eq, hs.withoutGlobal_append (by simp [enclosed_cons]), enclosed_cons,
    TypeForm.of_generic (hs.mark_not_mem (by decide)), TypeForm.name, arguments_intercalate hne h,
    List.map_cons, enclosed_cons]
  simp

/-! ## type expressions -/

/-- A type as it may be written.  What is `global` has the alias of the global
namespace in front. -/
inductive TypeExpr where
  | keyword (k : TypeKeyword)
  | named (isGlobal : Bool) (n : QualifiedName)
  | generic (isGlobal : Bool) (n : QualifiedName) (first : TypeExpr) (rest : List TypeExpr)
  | array (element : TypeExpr)
  | nullable (value : TypeExpr)

namespace TypeExpr

def globalTokens (isGlobal : Bool) : List (List Char) :=
  if isGlobal then ["global".toList, "::".toList] else []

mutual
/-- The tokens of a type. -/
def tokens : TypeExpr → List (List Char)
  | keyword k => [k.word.toList]
  | named isGlobal n => globalTokens isGlobal ++ n.tokens
  | generic isGlobal n first rest =>
    globalTokens isGlobal ++ n.tokens ++ listTokens (first.tokens :: tokensOf rest)
  | array element => element.tokens ++ [['['], [']']]
  | nullable value => value.tokens ++ [['?']]

/-- The tokens of each of some types. -/
def tokensOf : List TypeExpr → List (List (List Char))
  | [] => []
  | e :: es => e.tokens :: tokensOf es
end

/-- The text of a type without white space. -/
def text (e : TypeExpr) : List Char := e.tokens.flatten

/-- Whether the type is a keyword for a value type. -/
def isValue : TypeExpr → Bool
  | keyword k => k.isValue
  | _ => false

mutual
/-- The name of a type in a documentation ID. -/
def name : TypeExpr → List Char
  | keyword k => k.systemName.toList
  | named _ n => n.text
  | generic _ n first rest => n.text ++ enclosed '{' '}' (first.name :: names rest)
  | array element => element.name ++ "[]".toList
  | nullable value =>
    if value.isValue then "System.Nullable\x7b".toList ++ value.name ++ ['}'] else value.name

/-- The names of types. -/
def names : List TypeExpr → List (List Char)
  | [] => []
  | e :: es => e.name :: names es
end

theorem tokensOf_eq (es : List TypeExpr) : tokensOf es = es.map tokens := by
  induction es with
  | nil => rfl
  | cons e es ih => rw [tokensOf, ih, List.map_cons]

theorem names_eq (es : List TypeExpr) : names es = es.map name := by
  induction es with
  | nil => rfl
  | cons e es ih => rw [names, ih, List.map_cons]

/-- What holds of a type if it holds of its parts holds of every type. -/
@[induction_eliminator]
theorem induction {P : TypeExpr → Prop} (keyword : ∀ k, P (.keyword k))
    (named : ∀ isGlobal n, P (.named isGlobal n))
    (generic : ∀ isGlobal n first rest, P first → (∀ e ∈ rest, P e) →
      P (.generic isGlobal n first rest))
    (array : ∀ element, P element → P (.array element))
    (nullable : ∀ value, P value → P (.nullable value)) (e : TypeExpr) : P e :=
  @TypeExpr.rec P (fun es => ∀ e ∈ es, P e) keyword named generic array nullable
    (List.forall_mem_nil P) (fun _ _ he hes => List.forall_mem_cons.2 ⟨he, hes⟩) e

/-! ### texts -/

/-- The text of a type without the alias of the global namespace in front. -/
def core : TypeExpr → List Char
  | keyword k => k.word.toList
  | named _ n => n.text
  | generic _ n first rest => n.text ++ enclosed '<' '>' ((first :: rest).map text)
  | array element => element.core ++ "[]".toList
  | nullable value => value.core ++ ['?']

theorem text_generic (isGlobal : Bool) (n : QualifiedName) (first : TypeExpr)
    (rest : List TypeExpr) : (generic isGlobal n first rest).text =
      (globalTokens isGlobal).flatten ++ (generic isGlobal n first rest).core := by
  rw [text, tokens, List.flatten_append, List.flatten_append, tokensOf_eq, ← List.map_cons,
    flatten_listTokens, List.map_map, List.append_assoc]
  rfl

/-- The text of a type is its core, with or without the alias in front. -/
theorem text_eq (e : TypeExpr) :
    ∃ isGlobal, e.text = (globalTokens isGlobal).flatten ++ e.core := by
  induction e with
  | keyword k => exact ⟨false, by simp [text, tokens, core, globalTokens]⟩
  | named isGlobal n => exact ⟨isGlobal, by simp [text, tokens, core, QualifiedName.text]⟩
  | generic isGlobal n first rest => exact ⟨isGlobal, text_generic isGlobal n first rest⟩
  | array element ih =>
    obtain ⟨isGlobal, h⟩ := ih
    refine ⟨isGlobal, ?_⟩
    rw [core, ← List.append_assoc, ← h]
    simp [text, tokens]
  | nullable value ih =>
    obtain ⟨isGlobal, h⟩ := ih
    refine ⟨isGlobal, ?_⟩
    rw [core, ← List.append_assoc, ← h]
    simp [text, tokens]

theorem isWhole_globalTokens (isGlobal : Bool) : IsWhole (globalTokens isGlobal).flatten := by
  cases isGlobal <;> exact isWhole_of_forall (List.all_iff_forall_prop.1 rfl)

theorem isWhole_text_of_core {e : TypeExpr} (h : IsWhole e.core) : IsWhole e.text := by
  obtain ⟨isGlobal, htext⟩ := e.text_eq
  rw [htext]
  exact (isWhole_globalTokens isGlobal).append h

theorem isWhole_core (e : TypeExpr) : IsWhole e.core := by
  induction e with
  | keyword k => exact k.isNameText_word.isWhole
  | named isGlobal n => exact n.isNameText.isWhole
  | generic isGlobal n first rest hfirst hrest =>
    refine n.isNameText.isWhole.append (isWhole_enclosed ?_)
    rw [List.forall_mem_map, List.forall_mem_cons]
    exact ⟨isWhole_text_of_core hfirst, fun e he => isWhole_text_of_core (hrest e he)⟩
  | array element ih => exact ih.append isWhole_square
  | nullable value ih => exact ih.append (isWhole_of_forall (List.all_iff_forall_prop.1 rfl))

/-- The text of a type is part of one argument wherever it stands. -/
theorem isWhole_text (e : TypeExpr) : IsWhole e.text := isWhole_text_of_core e.isWhole_core

theorem isBlank_text_of_core {e : TypeExpr} (h : ∀ c ∈ e.core, isBlank c = false) :
    ∀ c ∈ e.text, isBlank c = false := by
  obtain ⟨isGlobal, htext⟩ := e.text_eq
  have halias : ∀ c ∈ (globalTokens isGlobal).flatten, isBlank c = false := by
    cases isGlobal <;> exact List.all_iff_forall_prop.1 rfl
  rw [htext, List.forall_mem_append]
  exact ⟨halias, h⟩

theorem isBlank_core (e : TypeExpr) : ∀ c ∈ e.core, isBlank c = false := by
  induction e with
  | keyword k => exact fun c hc => k.isNameText_word.isBlank_eq_false hc
  | named isGlobal n => exact fun c hc => n.isNameText.isBlank_eq_false hc
  | generic isGlobal n first rest hfirst hrest =>
    rw [core, List.forall_mem_append]
    refine ⟨fun c hc => n.isNameText.isBlank_eq_false hc, isBlank_enclosed ?_⟩
    rw [List.forall_mem_map, List.forall_mem_cons]
    exact ⟨isBlank_text_of_core hfirst, fun e he => isBlank_text_of_core (hrest e he)⟩
  | array element ih => exact List.forall_mem_append.2 ⟨ih, List.all_iff_forall_prop.1 rfl⟩
  | nullable value ih => exact List.forall_mem_append.2 ⟨ih, List.all_iff_forall_prop.1 rfl⟩

theorem isBlank_text (e : TypeExpr) : ∀ c ∈ e.text, isBlank c = false :=
  isBlank_text_of_core e.isBlank_core

/-- The alias is only in front of a type. -/
theorem global_not_isPrefix_core (e : TypeExpr) : ¬ "global::".toList <+: e.core := by
  induction e with
  | keyword k => exact k.isNameText_word.global_not_isPrefix
  | named isGlobal n => exact n.isNameText.global_not_isPrefix
  | generic isGlobal n first rest =>
    exact global_not_isPrefix_append n.isNameText.global_not_isPrefix (by simp [enclosed_cons])
  | array element ih => exact global_not_isPrefix_append ih (by simp)
  | nullable value ih => exact global_not_isPrefix_append ih (by simp)

theorem withoutGlobal_core (e : TypeExpr) : withoutGlobal e.core = e.core :=
  withoutGlobal_eq_self e.global_not_isPrefix_core

theorem withoutGlobal_text (e : TypeExpr) : withoutGlobal e.text = e.core := by
  obtain ⟨isGlobal, h⟩ := e.text_eq
  rw [h]
  cases isGlobal with
  | false => exact e.withoutGlobal_core
  | true => exact withoutGlobal_global e.core

/-! ### the computed name -/

theorem isValueKeyword_core (e : TypeExpr) : isValueKeyword e.core = e.isValue := by
  cases e with
  | keyword k => exact k.isValueKeyword_word
  | named isGlobal n => exact TypeKeyword.isValueKeyword_eq_false n.word_ne
  | generic isGlobal n first rest =>
    exact isValueKeyword_of_mark (by decide : '<' ∈ _) (by simp [core, enclosed_cons])
  | array element => exact isValueKeyword_of_mark (by decide : ']' ∈ _) (by simp [core])
  | nullable value => exact isValueKeyword_of_mark (by decide : '?' ∈ _) (by simp [core])

theorem typeNameOf_text (e : TypeExpr) : typeNameOf e.text = typeNameOf e.core := by
  rw [typeNameOf_eq, typeNameOf_eq, withoutGlobal_text, withoutGlobal_core]

/-- The name that is computed from the text of a type is that of the type. -/
theorem typeNameOf_core (e : TypeExpr) : typeNameOf e.core = e.name := by
  induction e with
  | keyword k =>
    rw [typeNameOf_eq, withoutGlobal_core, core, k.isNameText_word.typeForm, TypeForm.name,
      k.keywordType?_word]
    rfl
  | named isGlobal n =>
    have hnone : keywordType? n.text = none := TypeKeyword.keywordType?_eq_none n.word_ne
    rw [typeNameOf_eq, withoutGlobal_core, core, n.isNameText.typeForm, TypeForm.name, hnone]
    rfl
  | generic isGlobal n first rest hfirst hrest =>
    have hwhole : ∀ part ∈ (first :: rest).map text, IsWhole part :=
      List.forall_mem_map.2 fun e _ => e.isWhole_text
    have hnames : ((first :: rest).map text).map typeNameOf = first.name :: names rest := by
      rw [List.map_cons, List.map_cons, List.map_map, names_eq, typeNameOf_text, hfirst]
      congr 1
      exact List.map_congr_left fun e he => (typeNameOf_text e).trans (hrest e he)
    rw [core, typeNameOf_enclosed n.isNameText (by simp) hwhole, hnames, name]
  | array element ih =>
    rw [typeNameOf_eq, withoutGlobal_core, core, TypeForm.of_array, TypeForm.name, ih, name]
  | nullable value ih =>
    rw [typeNameOf_eq, withoutGlobal_core, core, TypeForm.of_nullable, TypeForm.name, ih,
      isValueKeyword_core, name]

/-- The name of a type follows its structure, whatever white space is between its
tokens. -/
theorem typeName_spread (e : TypeExpr) (gap : Nat → Blank) :
    typeName (.ofList (spread gap e.tokens)) = .ofList e.name := by
  rw [typeName, String.toList_ofList, squeeze_spread e.isBlank_text, ← text, typeNameOf_text,
    typeNameOf_core]

end TypeExpr

end ResourceAudit.Documentation
