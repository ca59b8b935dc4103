import ResourceAudit.Text.Blank

/-!
# ResourceAudit.Documentation.TypeName

The name of a C# type inside a documentation ID.  Keyword types get the names
the runtime knows them by, type arguments stand in braces, and `?` is spelled
out for the keyword types that are values.  Everything else stays as written:
what a name refers to is not known here.
-/

namespace ResourceAudit.Documentation

open ResourceAudit.Text

/-! ## keyword types -/

/-- The name of a keyword type. -/
def keywordType? (name : List Char) : Option String :=
  match String.ofList name with
  | "object" => some "System.Object"
  | "string" => some "System.String"
  | "bool" => some "System.Boolean"
  | "byte" => some "System.Byte"
  | "sbyte" => some "System.SByte"
  | "char" => some "System.Char"
  | "decimal" => some "System.Decimal"
  | "double" => some "System.Double"
  | "float" => some "System.Single"
  | "int" => some "System.Int32"
  | "uint" => some "System.UInt32"
  | "long" => some "System.Int64"
  | "ulong" => some "System.UInt64"
  | "short" => some "System.Int16"
  | "ushort" => some "System.UInt16"
  | "nint" => some "System.IntPtr"
  | "nuint" => some "System.UIntPtr"
  | "void" => some "System.Void"
  | _ => none

/-- Whether a keyword type is a value type. -/
def isValueKeyword (name : List Char) : Bool :=
  name != "object".toList && name != "string".toList && (keywordType? name).isSome

/-! ## argument lists -/

/-- The arguments of a list, with so many brackets open: the commas inside
brackets do not separate. -/
def argumentsFrom (depth : Nat) : List Char → List (List Char)
  | [] => [[]]
  | c :: rest =>
    if c = ',' ∧ depth = 0 then [] :: argumentsFrom 0 rest
    else
      let depth' :=
        if c = '<' ∨ c = '(' ∨ c = '[' then depth + 1
        else if c = '>' ∨ c = ')' ∨ c = ']' then depth - 1
        else depth
      match argumentsFrom depth' rest with
      | [] => [[c]]
      | part :: parts => (c :: part) :: parts

/-- The arguments of a list. -/
def arguments (s : List Char) : List (List Char) := argumentsFrom 0 s

theorem length_le_of_mem_argumentsFrom {depth : Nat} {s part : List Char}
    (h : part ∈ argumentsFrom depth s) : part.length ≤ s.length := by
  induction s generalizing depth part with
  | nil => simp_all [argumentsFrom]
  | cons c rest ih =>
    rw [argumentsFrom] at h
    split at h
    · rcases List.mem_cons.1 h with rfl | h
      · simp
      · have := ih h
        simp only [List.length_cons]
        omega
    · dsimp only at h
      split at h
      · simp_all
      · next first others hparts =>
        rcases List.mem_cons.1 h with rfl | h
        · have := ih (hparts ▸ List.mem_cons_self)
          simp only [List.length_cons]
          omega
        · have := ih (hparts ▸ List.mem_cons_of_mem _ h)
          simp only [List.length_cons]
          omega

/-! ## type names -/

/-- A type without the alias that names the global namespace. -/
def withoutGlobal (s : List Char) : List Char :=
  let marker := "global::".toList
  if marker.isPrefixOf s then s.drop marker.length else s

theorem withoutGlobal_length_le (s : List Char) : (withoutGlobal s).length ≤ s.length := by
  unfold withoutGlobal
  dsimp only
  split <;> simp

/-- How a type is put together, seen from its last character. -/
inductive TypeForm where
  | array (element : List Char)
  | nullable (value : List Char)
  | generic (name arguments : List Char)
  | plain (name : List Char)
  deriving DecidableEq, Repr

/-- The form of a type without white space. -/
def TypeForm.of (s : List Char) : TypeForm :=
  match s.reverse with
  | ']' :: '[' :: element => .array element.reverse
  | '?' :: value => .nullable value.reverse
  | '>' :: _ =>
    let name := s.takeWhile (· != '<')
    match s.drop name.length with
    | [] => .plain s
    | _ :: inside => .generic name inside.dropLast
  | _ => .plain s

/-- The length of the part that is a type or a list of types, and one more;
zero for a plain name. -/
def TypeForm.depth : TypeForm → Nat
  | .array inner | .nullable inner | .generic _ inner => inner.length + 1
  | .plain _ => 0

theorem TypeForm.depth_of_le (s : List Char) : (TypeForm.of s).depth ≤ s.length := by
  have hlen : s.reverse.length = s.length := List.length_reverse
  unfold TypeForm.of
  split
  · next h =>
    rw [h] at hlen
    simp only [TypeForm.depth, List.length_cons, List.length_reverse] at hlen ⊢
    omega
  · next h =>
    rw [h] at hlen
    simp only [TypeForm.depth, List.length_cons, List.length_reverse] at hlen ⊢
    omega
  · dsimp only
    split
    · simp [TypeForm.depth]
    · next h =>
      have := congrArg List.length h
      simp only [TypeForm.depth, List.length_drop, List.length_cons, List.length_dropLast] at this ⊢
      omega
  · simp [TypeForm.depth]

/-- The name of a type that is written without white space. -/
def typeNameOf (s : List Char) : List Char :=
  match _h : TypeForm.of (withoutGlobal s) with
  | .array element => typeNameOf element ++ "[]".toList
  | .nullable value =>
    if isValueKeyword value then "System.Nullable\x7b".toList ++ typeNameOf value ++ ['}']
    else typeNameOf value
  | .generic name inside =>
    let names := (arguments inside).attach.map fun ⟨argument, _⟩ => typeNameOf argument
    name ++ ['{'] ++ List.intercalate [','] names ++ ['}']
  | .plain name => (keywordType? name).elim name String.toList
termination_by s.length
decreasing_by
  all_goals
    have hform := TypeForm.depth_of_le (withoutGlobal s)
    have hlen := withoutGlobal_length_le s
    rw [_h, TypeForm.depth] at hform
  · omega
  · omega
  · omega
  · next hmem =>
    have := length_le_of_mem_argumentsFrom hmem
    omega

/-- The name of a type as written in a source. -/
def typeName (written : String) : String := .ofList (typeNameOf (squeeze written.toList))

end ResourceAudit.Documentation
