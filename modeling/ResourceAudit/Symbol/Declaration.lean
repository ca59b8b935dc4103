import ResourceAudit.CSharp.Outline.Reading
import ResourceAudit.Documentation.Markup
import ResourceAudit.Documentation.TypeName
import ResourceAudit.Symbol

/-!
# ResourceAudit.Symbol.Declaration

The type declarations of an outline, a type before the types nested in it.  The
ID of a declaration is made of the namespaces and types around it; `Scope`
carries these down.  The members of a type are collected before the types nested
in it are declared, and these are kept aside until then.
-/

namespace ResourceAudit

open CSharp Documentation

/-! ## scopes -/

/-- What is around a declaration. -/
structure Scope where
  /-- The names of the namespaces with dots between them, empty outside of all. -/
  namespaces : String
  /-- The types, outermost first, each with the number of its type parameters. -/
  types : List String
  deriving DecidableEq, Repr

/-- The scope of a file. -/
def Scope.file : Scope := ⟨"", []⟩

/-- The scope inside a namespace. -/
def Scope.enterNamespace (s : Scope) (name : String) : Scope :=
  { s with namespaces := if s.namespaces.isEmpty then name else s.namespaces ++ "." ++ name }

/-- The scope inside a type. -/
def Scope.enterType (s : Scope) (name : String) : Scope := { s with types := s.types ++ [name] }

/-- A name with what is around it. -/
def Scope.qualify (s : Scope) (name : String) : String :=
  let outer := if s.namespaces.isEmpty then [] else [s.namespaces]
  ".".intercalate (outer ++ s.types ++ [name])

/-- The name of a type with the number of its type parameters. -/
def typeMetadataName (name : String) (arity : Nat) : String :=
  if arity = 0 then name else name ++ "\x60" ++ toString arity

/-- The name of a method with the number of its type parameters. -/
def methodMetadataName (name : String) (arity : Nat) : String :=
  if arity = 0 then name else name ++ "\x60\x60" ++ toString arity

def typeId (s : Scope) (name : String) (arity : Nat) : String :=
  "T:" ++ s.qualify (typeMetadataName name arity)

/-! ## parameters -/

/-- A parameter in a documentation ID. -/
def parameterName (p : Parameter) : String :=
  typeName p.type ++ if p.isByRef then "@" else ""

/-- The parameter list of a documentation ID.  A parameter that takes any number
of arguments is left out, and so is a list without parameters. -/
def signature (parameters : List Parameter) : String :=
  match (parameters.filter (!·.isVariadic)).map parameterName with
  | [] => ""
  | names => "(" ++ ",".intercalate names ++ ")"

/-! ## documentation -/

/-- The documentation line a comment is, if it is one. -/
def documentationLine? (comment : String) : Option String :=
  match comment.toList with
  | '/' :: '/' :: '/' :: '/' :: _ => none
  | '/' :: '/' :: '/' :: line => some (.ofList line)
  | _ => none

/-- The member with the given ID, documented by the comments before it. -/
def documented (lead : Lead) (name : String) (kind : MemberKind) (isStatic : Bool) (id : String) :
    MemberSymbol :=
  ⟨name, kind, isStatic, markup id (lead.comments.filterMap documentationLine?)⟩

/-! ## members -/

def CSharp.Lead.isStatic (lead : Lead) : Bool := lead.modifiers.contains "static"

/-- Whether a field is static, which a constant is. -/
def CSharp.Lead.isStaticField (lead : Lead) : Bool :=
  lead.isStatic || lead.modifiers.contains "const"

/-- A type in the body of another one, which is declared after that. -/
structure NestedType where
  kind : TypeKind
  name : String
  arity : Nat
  members : List Member

/-- What is found in the body of a type: its members, and the types in it that
have declarations of their own. -/
structure TypeBody where
  members : List MemberSymbol
  nested : List NestedType

def TypeBody.append (b c : TypeBody) : TypeBody := ⟨b.members ++ c.members, b.nested ++ c.nested⟩

mutual
/-- What a member of a type in the given scope stands for.  A nested delegate is
a member only. -/
def collectMember (s : Scope) : Member → TypeBody
  | .fields lead names =>
    ⟨names.map fun name => documented lead name .field lead.isStaticField ("F:" ++ s.qualify name),
      []⟩
  | .fieldEvents lead names =>
    ⟨names.map fun name => documented lead name .event lead.isStaticField ("E:" ++ s.qualify name),
      []⟩
  | .constant lead name => ⟨[documented lead name .field true ("F:" ++ s.qualify name)], []⟩
  | .property lead name =>
    ⟨[documented lead name .property lead.isStatic ("P:" ++ s.qualify name)], []⟩
  | .indexer lead parameters =>
    ⟨[documented lead "this[]" .property lead.isStatic
      ("P:" ++ s.qualify "Item" ++ signature parameters)], []⟩
  | .event lead name => ⟨[documented lead name .event lead.isStatic ("E:" ++ s.qualify name)], []⟩
  | .method lead name arity parameters =>
    ⟨[documented lead name .method lead.isStatic
      ("M:" ++ s.qualify (methodMetadataName name arity) ++ signature parameters)], []⟩
  | .constructor lead parameters =>
    let (name, idName) := if lead.isStatic then (".cctor", "#cctor") else (".ctor", "#ctor")
    ⟨[documented lead name .method lead.isStatic
      ("M:" ++ s.qualify idName ++ signature parameters)], []⟩
  | .type lead kind name arity members =>
    ⟨[documented lead name .nestedType lead.isStatic (typeId s name arity)],
      if kind = .delegate then [] else [⟨kind, name, arity, members⟩]⟩
  | .conditional members => collectMembers s members
  | .unreadable => ⟨[], []⟩

/-- What the members of a type in the given scope stand for. -/
def collectMembers (s : Scope) : List Member → TypeBody
  | [] => ⟨[], []⟩
  | member :: rest => (collectMember s member).append (collectMembers s rest)
end

/-! ## declarations -/

mutual
theorem sizeOf_lt_of_mem_collectMember {s : Scope} {n : NestedType} {m : Member}
    (h : n ∈ (collectMember s m).nested) : sizeOf n.members < sizeOf m := by
  cases m with
  | type lead kind name arity members =>
    simp only [collectMember] at h
    split at h
    · cases h
    · rw [List.mem_singleton.1 h]
      simp only [Member.type.sizeOf_spec]
      omega
  | conditional members =>
    have hlt := sizeOf_lt_of_mem_collectMembers h
    simp only [Member.conditional.sizeOf_spec]
    omega
  | _ => simp [collectMember] at h

/-- A nested type is smaller than the body it was found in. -/
theorem sizeOf_lt_of_mem_collectMembers {s : Scope} {n : NestedType} {ms : List Member}
    (h : n ∈ (collectMembers s ms).nested) : sizeOf n.members < sizeOf ms := by
  cases ms with
  | nil => cases h
  | cons m rest =>
    simp only [collectMembers, TypeBody.append, List.mem_append] at h
    simp only [List.cons.sizeOf_spec]
    rcases h with h | h
    · have hlt := sizeOf_lt_of_mem_collectMember h
      omega
    · have hlt := sizeOf_lt_of_mem_collectMembers h
      omega
end

/-- The declarations of a type and of the types nested in it: first its own, with
all its members, and then those of the nested types, one after the other. -/
def declarationsOfType (s : Scope) (kind : TypeKind) (name : String) (arity : Nat)
    (members : List Member) : List TypeDeclaration :=
  let metadataName := typeMetadataName name arity
  let inner := s.enterType metadataName
  let body := collectMembers inner members
  ⟨kind, name, "T:" ++ s.qualify metadataName, body.members⟩ ::
    body.nested.attach.flatMap fun ⟨n, _h⟩ =>
      declarationsOfType inner n.kind n.name n.arity n.members
termination_by sizeOf members
decreasing_by exact sizeOf_lt_of_mem_collectMembers _h

mutual
/-- The declarations of items in the given scope. -/
def declarationsOfItems (s : Scope) : List Item → List TypeDeclaration
  | [] => []
  | .fileNamespace name :: rest => declarationsOfItems (s.enterNamespace name) rest
  | item :: rest => declarationsOfItem s item ++ declarationsOfItems s rest

def declarationsOfItem (s : Scope) : Item → List TypeDeclaration
  | .namespace name items => declarationsOfItems (s.enterNamespace name) items
  | .type kind name arity members => declarationsOfType s kind name arity members
  | .conditional items => declarationsOfItems s items
  | .fileNamespace _ | .unreadable => []
end

/-- The type declarations of an outline. -/
def CSharp.Outline.declarations (o : Outline) : List TypeDeclaration :=
  declarationsOfItems Scope.file o.items

end ResourceAudit
