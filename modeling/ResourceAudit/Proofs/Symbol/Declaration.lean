import ResourceAudit.Proofs.CSharp.Occurrence
import ResourceAudit.Proofs.Results
import ResourceAudit.Symbol.Declaration
import Mathlib.Data.List.Nodup

/-!
# ResourceAudit.Proofs.Symbol.Declaration

Which types are declared, and under which IDs.  The declarations of an outline
are found in two walks, one over the items and one over the bodies of types, in
which the types nested in a body are kept aside until its own type has been
declared.  What comes out is told here from the outline alone
(`Outline.declares_types`): one declaration for each type where it stands, in the
order of the source, nested delegates left out; its ID names the namespaces and
types around it, and so do the IDs of its members.  These are written into the
documentation of the members, one for each in the order of the source
(`IsSymbolOf`), and the types nested in it are among them under the IDs of their
own declarations.
-/

namespace ResourceAudit

open CSharp Documentation

/-! ## proper outlines -/

mutual
/-- Whether the delegates in a member have no bodies. -/
def CSharp.Member.isProper : Member → Bool
  | .type _ kind _ _ members => (kind ≠ .delegate || members.isEmpty) && areMembersProper members
  | .conditional members => areMembersProper members
  | _ => true

def areMembersProper : List Member → Bool
  | [] => true
  | member :: rest => member.isProper && areMembersProper rest
end

mutual
/-- Whether the namespaces in an item have names, and the delegates no bodies. -/
def CSharp.Item.isProper : Item → Bool
  | .namespace name items => name ≠ "" && areItemsProper items
  | .fileNamespace name => name ≠ ""
  | .type kind _ _ members => (kind ≠ .delegate || members.isEmpty) && areMembersProper members
  | .conditional items => areItemsProper items
  | .unreadable => true

def areItemsProper : List Item → Bool
  | [] => true
  | item :: rest => item.isProper && areItemsProper rest
end

/-- Having names for all namespaces and no bodies for delegates, as the source
of a program has. -/
def CSharp.Outline.IsProper (o : Outline) : Prop := areItemsProper o.items = true

instance (o : Outline) : Decidable o.IsProper := inferInstanceAs (Decidable (_ = true))

/-! ## IDs -/

/-- A name with a backtick and the number of its type parameters, if it has any. -/
def nameWithArity (name : String) (arity : Nat) : String :=
  name ++ if 0 < arity then "\x60" ++ toString arity else ""

namespace CSharp

/-- The namespaces among what is around, outermost first. -/
def namespacesOf (around : List Surrounding) : List String :=
  around.filterMap fun
    | .namespace name => some name
    | .type .. => none

/-- The types among what is around, outermost first. -/
def typesOf (around : List Surrounding) : List String :=
  around.filterMap fun
    | .type name arity => some (nameWithArity name arity)
    | .namespace _ => none

namespace TypeOccurrence

/-- The names of the namespaces and the types around a type, and its own. -/
def path (x : TypeOccurrence) : String :=
  ".".intercalate (namespacesOf x.around ++ typesOf x.around ++ [nameWithArity x.name x.arity])

def id (x : TypeOccurrence) : String := "T:" ++ x.path

/-- Whether a type has a declaration: all but the delegates that are nested in a
type. -/
def isDeclared (x : TypeOccurrence) : Bool := x.kind ≠ .delegate || (typesOf x.around).isEmpty

end TypeOccurrence

end CSharp

/-! ## members -/

/-- What the IDs of members of a kind begin with. -/
def MemberKind.mark : MemberKind → String
  | .field => "F:"
  | .property => "P:"
  | .method => "M:"
  | .event => "E:"
  | .nestedType => "T:"

namespace CSharp

/-- The documentation before a member: the comments with three slashes in front, and
not four, without these. -/
def Lead.documentation (lead : Lead) : List String :=
  (lead.comments.filter fun comment =>
    "///".toList <+: comment.toList ∧ ¬ "////".toList <+: comment.toList).map
      fun comment => .ofList (comment.toList.drop 3)

/-- A member of a type as it is declared. -/
structure DeclaredMember where
  lead : Lead
  kind : MemberKind
  name : String
  /-- What its ID has behind the path of the type. -/
  idName : String

def DeclaredMember.id (m : DeclaredMember) (path : String) : String :=
  m.kind.mark ++ path ++ "." ++ m.idName

mutual
/-- What a member of a type declares, which is more than one member where it gives
several names. -/
def Member.declared : Member → List DeclaredMember
  | .fields lead names => names.map fun name => ⟨lead, .field, name, name⟩
  | .fieldEvents lead names => names.map fun name => ⟨lead, .event, name, name⟩
  | .constant lead name => [⟨lead, .field, name, name⟩]
  | .property lead name => [⟨lead, .property, name, name⟩]
  | .indexer lead parameters => [⟨lead, .property, "this[]", "Item" ++ signature parameters⟩]
  | .event lead name => [⟨lead, .event, name, name⟩]
  | .method lead name arity parameters =>
    [⟨lead, .method, name, methodMetadataName name arity ++ signature parameters⟩]
  | .constructor lead parameters =>
    if lead.isStatic then [⟨lead, .method, ".cctor", "#cctor" ++ signature parameters⟩]
    else [⟨lead, .method, ".ctor", "#ctor" ++ signature parameters⟩]
  | .type lead _ name arity _ => [⟨lead, .nestedType, name, nameWithArity name arity⟩]
  | .conditional members => declaredMembers members
  | .unreadable => []

/-- What members of a type declare, in the order of the source. -/
def declaredMembers : List Member → List DeclaredMember
  | [] => []
  | member :: rest => member.declared ++ declaredMembers rest
end

/-- A nested type as a member of the type it is in. -/
def NestedOccurrence.symbol (n : NestedOccurrence) : MemberSymbol :=
  ⟨n.type.name, .nestedType, n.lead.isStatic, markup n.type.id n.lead.documentation⟩

end CSharp

/-- Being the symbol of a member in a type with the given path: the ID that is written
into its documentation goes on from there. -/
structure IsSymbolOf (path : String) (m : DeclaredMember) (symbol : MemberSymbol) : Prop where
  kind_eq : symbol.kind = m.kind
  name_eq : symbol.name = m.name
  documentation_eq : symbol.documentation = markup (m.id path) m.lead.documentation

/-- Being the declaration of a type where it stands in an outline. -/
structure IsDeclarationOf (x : TypeOccurrence) (d : TypeDeclaration) : Prop where
  kind_eq : d.kind = x.kind
  name_eq : d.name = x.name
  id_eq : d.id = x.id
  /-- Every member has a symbol, in order, under an ID that goes on from that of the
  type. -/
  members : List.Forall₂ (IsSymbolOf x.path) (declaredMembers x.members) d.members
  /-- The types directly in it are those of its members that are types, in order,
  each under the ID of its own. -/
  nested : d.members.filter (·.kind = .nestedType) = x.nested.map NestedOccurrence.symbol

/-! ## scopes -/

/-- The scope in which something stands. -/
def scopeOf (around : List Surrounding) : Scope :=
  ⟨".".intercalate (namespacesOf around), typesOf around⟩

/-- Having a name for each namespace. -/
def AreNamed (around : List Surrounding) : Prop := ∀ name ∈ namespacesOf around, name ≠ ""

theorem typeMetadataName_eq (name : String) (arity : Nat) :
    typeMetadataName name arity = nameWithArity name arity := by
  unfold typeMetadataName nameWithArity
  by_cases h : arity = 0
  · simp [h]
  · rw [if_neg h, if_pos (by omega), String.append_assoc]

theorem areNamed_nil : AreNamed [] := List.forall_mem_nil _

section Surroundings

variable {around : List Surrounding}

theorem areNamed_namespace {name : String} (h : AreNamed around) (hname : name ≠ "") :
    AreNamed (around ++ [.namespace name]) := by
  simpa [AreNamed, namespacesOf, or_imp, forall_and, hname] using h

theorem areNamed_type (h : AreNamed around) (name : String) (arity : Nat) :
    AreNamed (around ++ [.type name arity]) := by
  simpa [AreNamed, namespacesOf] using h

/-- Names with dots between them are empty only if there are none. -/
theorem isEmpty_intercalate {names : List String} (h : ∀ name ∈ names, name ≠ "") :
    (".".intercalate names).isEmpty = names.isEmpty := by
  cases names with
  | nil => rfl
  | cons name names =>
    have hname : name ≠ "" := h name List.mem_cons_self
    cases names with
    | nil => simpa using hname
    | cons next names => simp [String.intercalate_cons_cons, hname]

theorem enterNamespace_scopeOf (h : AreNamed around) (name : String) :
    (scopeOf around).enterNamespace name = scopeOf (around ++ [.namespace name]) := by
  have htypes : typesOf (around ++ [.namespace name]) = typesOf around := by simp [typesOf]
  have hnames : namespacesOf (around ++ [.namespace name]) = namespacesOf around ++ [name] := by
    simp [namespacesOf]
  rw [Scope.enterNamespace, scopeOf, scopeOf, htypes, hnames, isEmpty_intercalate h]
  cases hnil : namespacesOf around with
  | nil => simp
  | cons first names =>
    rw [String.intercalate_append_of_ne_nil (List.cons_ne_nil _ _) (List.cons_ne_nil _ _),
      String.intercalate_singleton]
    rfl

theorem enterType_scopeOf (around : List Surrounding) (name : String) (arity : Nat) :
    (scopeOf around).enterType (typeMetadataName name arity) =
      scopeOf (around ++ [.type name arity]) := by
  simp [Scope.enterType, scopeOf, namespacesOf, typesOf, typeMetadataName_eq]

theorem qualify_scopeOf (h : AreNamed around) (name : String) :
    (scopeOf around).qualify name =
      ".".intercalate (namespacesOf around ++ typesOf around ++ [name]) := by
  rw [Scope.qualify, scopeOf, isEmpty_intercalate h, List.append_assoc, List.append_assoc]
  have hlast : typesOf around ++ [name] ≠ [] := by simp
  cases hnil : namespacesOf around with
  | nil => rfl
  | cons first names =>
    rw [String.intercalate_append_of_ne_nil (List.cons_ne_nil _ _) hlast, List.isEmpty_cons,
      if_neg Bool.false_ne_true, String.intercalate_append_of_ne_nil (List.cons_ne_nil _ _) hlast,
      String.intercalate_singleton]

/-- The ID that is made in a scope is that of the type that stands there. -/
theorem typeId_scopeOf {x : TypeOccurrence} (h : AreNamed x.around) :
    typeId (scopeOf x.around) x.name x.arity = x.id := by
  rw [typeId, qualify_scopeOf h, typeMetadataName_eq, TypeOccurrence.id, TypeOccurrence.path]

/-- Names in a type go on from its path. -/
theorem qualify_aroundMembers {x : TypeOccurrence} (h : AreNamed x.around) (name : String) :
    (scopeOf x.aroundMembers).qualify name = x.path ++ "." ++ name := by
  have hnamespaces : namespacesOf x.aroundMembers = namespacesOf x.around := by
    simp [TypeOccurrence.aroundMembers, namespacesOf]
  have htypes : typesOf x.aroundMembers = typesOf x.around ++ [nameWithArity x.name x.arity] := by
    simp [TypeOccurrence.aroundMembers, typesOf]
  have hnamed : AreNamed x.aroundMembers := areNamed_type h x.name x.arity
  rw [qualify_scopeOf hnamed, hnamespaces, htypes, ← List.append_assoc,
    String.intercalate_append_of_ne_nil (by simp) (List.cons_ne_nil _ _),
    String.intercalate_singleton, TypeOccurrence.path]

end Surroundings

/-! ## bodies of types -/

section Bodies

theorem documentationLine?_eq (comment : String) : documentationLine? comment =
    if "///".toList <+: comment.toList ∧ ¬ "////".toList <+: comment.toList then
      some (.ofList (comment.toList.drop 3)) else none := by
  rw [documentationLine?]
  split
  · next rest h => exact (if_neg fun hline => hline.2 ⟨rest, h.symm⟩).symm
  · next line hslash h =>
    have hfour : ¬ "////".toList <+: comment.toList := by
      rintro ⟨rest, hrest⟩
      have happend : "///".toList ++ line = "///".toList ++ '/' :: rest := h.symm.trans hrest.symm
      exact hslash rest (List.append_cancel_left happend)
    rw [if_pos ⟨⟨line, h.symm⟩, hfour⟩, h]
    rfl
  · next hslashes => exact (if_neg fun hline => hline.1.elim fun line h => hslashes line h.symm).symm

theorem filterMap_documentationLine? (lead : Lead) :
    lead.comments.filterMap documentationLine? = lead.documentation := by
  rw [Lead.documentation, ← List.filterMap_eq_map', List.filterMap_filter]
  refine List.filterMap_congr fun comment _ => ?_
  simp only [documentationLine?_eq, decide_eq_true_eq]

theorem isSymbolOf_documented {lead : Lead} {name path idName id : String} {kind : MemberKind}
    {isStatic : Bool} (h : id = kind.mark ++ path ++ "." ++ idName) :
    IsSymbolOf path ⟨lead, kind, name, idName⟩ (documented lead name kind isStatic id) where
  kind_eq := rfl
  name_eq := rfl
  documentation_eq := by rw [documented, filterMap_documentationLine?, h, DeclaredMember.id]

mutual
theorem forall₂_collectMember {s : Scope} {path : String}
    (hs : ∀ name, s.qualify name = path ++ "." ++ name) (m : Member) :
    List.Forall₂ (IsSymbolOf path) m.declared (collectMember s m).members := by
  cases m with
  | fields lead names | fieldEvents lead names =>
    rw [Member.declared, collectMember, List.forall₂_map_left_iff, List.forall₂_map_right_iff,
      List.forall₂_same]
    intro name _
    refine isSymbolOf_documented ?_
    simp only [hs, MemberKind.mark, String.append_assoc]
  | constructor lead parameters =>
    rw [Member.declared, collectMember]
    cases lead.isStatic with
    | true | false =>
      refine .cons (isSymbolOf_documented ?_) .nil
      simp only [hs, MemberKind.mark, String.append_assoc]
      rfl
  | type lead kind name arity members =>
    refine .cons (isSymbolOf_documented ?_) .nil
    simp only [typeId, hs, typeMetadataName_eq, MemberKind.mark, String.append_assoc]
  | conditional members => exact forall₂_collectMembers hs members
  | unreadable => exact .nil
  | _ =>
    refine .cons (isSymbolOf_documented ?_) .nil
    simp only [hs, MemberKind.mark, String.append_assoc]

/-- What is found in a body is what its members declare, under IDs that go on from the
path of the type. -/
theorem forall₂_collectMembers {s : Scope} {path : String}
    (hs : ∀ name, s.qualify name = path ++ "." ++ name) (ms : List Member) :
    List.Forall₂ (IsSymbolOf path) (declaredMembers ms) (collectMembers s ms).members := by
  cases ms with
  | nil => exact .nil
  | cons m ms => exact List.rel_append (forall₂_collectMember hs m) (forall₂_collectMembers hs ms)
end

/-- Members of another kind are no nested types. -/
theorem filter_nestedType_eq_nil {symbols : List MemberSymbol}
    (h : ∀ symbol ∈ symbols, symbol.kind ≠ .nestedType) :
    symbols.filter (·.kind = .nestedType) = [] := by
  simpa [List.filter_eq_nil_iff] using h

mutual
theorem filter_collectMember {around : List Surrounding} (h : AreNamed around) (place : List Nat)
    (m : Member) :
    (collectMember (scopeOf around) m).members.filter (·.kind = .nestedType) =
      (nestedInMember place around m).map NestedOccurrence.symbol := by
  cases m with
  | type lead kind name arity members =>
    have hid := typeId_scopeOf (x := ⟨place, around, kind, name, arity, members⟩) h
    rw [collectMember, nestedInMember, List.map_singleton, List.filter_singleton]
    simp only [documented, NestedOccurrence.symbol, filterMap_documentationLine?, decide_true,
      cond_true, hid]
  | conditional members =>
    rw [collectMember, nestedInMember]
    exact filter_collectMembers h place 0 members
  | _ => exact filter_nestedType_eq_nil (by simp [collectMember, documented])

/-- The nested types among the members that are found in a body are the types
directly in it. -/
theorem filter_collectMembers {around : List Surrounding} (h : AreNamed around)
    (place : List Nat) (index : Nat) (ms : List Member) :
    (collectMembers (scopeOf around) ms).members.filter (·.kind = .nestedType) =
      (nestedInMembers place around index ms).map NestedOccurrence.symbol := by
  cases ms with
  | nil => rfl
  | cons m ms =>
    rw [collectMembers, nestedInMembers, TypeBody.append, List.filter_append, List.map_append,
      filter_collectMember h (place ++ [index]) m, filter_collectMembers h place (index + 1) ms]
end

/-- A nested type as it is kept aside. -/
def CSharp.NestedOccurrence.toNestedType (n : NestedOccurrence) : NestedType :=
  ⟨n.type.kind, n.type.name, n.type.arity, n.type.members⟩

mutual
theorem nested_collectMember (s : Scope) (place : List Nat) (around : List Surrounding)
    (m : Member) : (collectMember s m).nested =
      ((nestedInMember place around m).filter (·.type.kind ≠ .delegate)).map
        NestedOccurrence.toNestedType := by
  cases m with
  | type lead kind name arity members =>
    by_cases hkind : kind = .delegate
    · simp [collectMember, nestedInMember, hkind]
    · simp [collectMember, nestedInMember, hkind, NestedOccurrence.toNestedType]
  | conditional members => exact nested_collectMembers s place around 0 members
  | _ => rfl

/-- The types that are kept aside are the types directly in a body, without the
delegates. -/
theorem nested_collectMembers (s : Scope) (place : List Nat) (around : List Surrounding)
    (index : Nat) (ms : List Member) : (collectMembers s ms).nested =
      ((nestedInMembers place around index ms).filter (·.type.kind ≠ .delegate)).map
        NestedOccurrence.toNestedType := by
  cases ms with
  | nil => rfl
  | cons m ms =>
    rw [collectMembers, nestedInMembers, TypeBody.append, List.filter_append, List.map_append,
      nested_collectMember s (place ++ [index]) around m,
      nested_collectMembers s place around (index + 1) ms]
end

end Bodies

/-! ## declarations of types -/

section Types

/-- Being no delegate with a body, and having none in it. -/
def CSharp.TypeOccurrence.IsProper (x : TypeOccurrence) : Prop :=
  (x.kind = .delegate → x.members = []) ∧ areMembersProper x.members = true

mutual
theorem of_mem_nestedInMember {place : List Nat} {around : List Surrounding} {m : Member}
    (hm : m.isProper = true) {n : NestedOccurrence} (h : n ∈ nestedInMember place around m) :
    n.type.around = around ∧ n.type.IsProper := by
  cases m with
  | type lead kind name arity members =>
    rw [List.mem_singleton.1 h]
    exact ⟨rfl, by simpa [Member.isProper, TypeOccurrence.IsProper, or_iff_not_imp_left] using hm⟩
  | conditional members => exact of_mem_nestedInMembers hm h
  | _ => cases h

/-- The types directly in a body are proper and stand in what is around it. -/
theorem of_mem_nestedInMembers {place : List Nat} {around : List Surrounding} {index : Nat}
    {ms : List Member} (hms : areMembersProper ms = true) {n : NestedOccurrence}
    (h : n ∈ nestedInMembers place around index ms) :
    n.type.around = around ∧ n.type.IsProper := by
  cases ms with
  | nil => cases h
  | cons m ms =>
    obtain ⟨hm, hms⟩ := (Bool.and_eq_true _ _).to_iff.1 hms
    rcases List.mem_append.1 h with h | h
    · exact of_mem_nestedInMember hm h
    · exact of_mem_nestedInMembers hms h
end

/-- A type directly in another one that is no delegate is smaller. -/
theorem sizeOf_lt_of_mem_nested {x : TypeOccurrence} {n : NestedOccurrence} (h : n ∈ x.nested)
    (hkind : n.type.kind ≠ .delegate) : sizeOf n.type.members < sizeOf x.members := by
  have hmem : n.toNestedType ∈ (collectMembers Scope.file x.members).nested := by
    rw [nested_collectMembers Scope.file x.place x.aroundMembers 0]
    exact List.mem_map_of_mem (List.mem_filter.2 ⟨h, by simpa using hkind⟩)
  exact sizeOf_lt_of_mem_collectMembers hmem

theorem isDeclared_of_kind {x : TypeOccurrence} (h : x.kind ≠ .delegate) : x.isDeclared = true := by
  simp [TypeOccurrence.isDeclared, h]

/-- Neither a delegate in a type nor anything inside it has a declaration. -/
theorem filter_isDeclared_eq_nil {x : TypeOccurrence} (hproper : x.IsProper)
    (hkind : x.kind = .delegate) (htypes : typesOf x.around ≠ []) :
    (x :: x.inside).filter (·.isDeclared) = [] := by
  have hinside : x.inside = [] := by
    rw [TypeOccurrence.inside, hproper.1 hkind]
    rfl
  have hleft : x.isDeclared = false := by
    simpa [TypeOccurrence.isDeclared, hkind] using htypes
  rw [hinside, List.filter_singleton, hleft, cond_false]

theorem typesOf_aroundMembers_ne_nil (x : TypeOccurrence) : typesOf x.aroundMembers ≠ [] := by
  simp [typesOf, TypeOccurrence.aroundMembers]

theorem declarationsOfType_eq (s : Scope) (kind : TypeKind) (name : String) (arity : Nat)
    (members : List Member) :
    declarationsOfType s kind name arity members =
      ⟨kind, name, typeId s name arity,
        (collectMembers (s.enterType (typeMetadataName name arity)) members).members⟩ ::
      (collectMembers (s.enterType (typeMetadataName name arity)) members).nested.flatMap fun n =>
        declarationsOfType (s.enterType (typeMetadataName name arity)) n.kind n.name n.arity
          n.members := by
  rw [declarationsOfType, List.flatMap_subtype fun _ _ => rfl, List.unattach_attach]
  rfl

/-- The first declaration that comes of a type is its own. -/
theorem isDeclarationOf_head {x : TypeOccurrence} (h : AreNamed x.around) :
    IsDeclarationOf x ⟨x.kind, x.name, typeId (scopeOf x.around) x.name x.arity,
      (collectMembers (scopeOf x.aroundMembers) x.members).members⟩ where
  kind_eq := rfl
  name_eq := rfl
  id_eq := typeId_scopeOf h
  members := forall₂_collectMembers (qualify_aroundMembers h) x.members
  nested := filter_collectMembers (areNamed_type h x.name x.arity) x.place 0 x.members

/-- Two lists that are made piece by piece agree if the pieces do, and if those
that are left out of one list are empty in the other. -/
theorem forall₂_flatMap_filter {α β γ : Type} {R : β → γ → Prop} {f : α → List β} {g : α → List γ}
    {p : α → Bool} {l : List α} (hkept : ∀ a ∈ l, p a = true → List.Forall₂ R (f a) (g a))
    (hleft : ∀ a ∈ l, p a = false → f a = []) :
    List.Forall₂ R (l.flatMap f) ((l.filter p).flatMap g) := by
  induction l with
  | nil => exact .nil
  | cons a l ih =>
    have hrest := ih (fun b hb => hkept b (List.mem_cons_of_mem a hb))
      (fun b hb => hleft b (List.mem_cons_of_mem a hb))
    rw [List.flatMap_cons]
    cases hp : p a with
    | true =>
      rw [List.filter_cons_of_pos hp, List.flatMap_cons]
      exact List.rel_append (hkept a List.mem_cons_self hp) hrest
    | false =>
      rwa [hleft a List.mem_cons_self hp, List.nil_append, List.filter_cons_of_neg (by simp [hp])]

/-- The declarations that come of a type are those of the types with declarations
among itself and the types inside it. -/
theorem forall₂_declarationsOfType (x : TypeOccurrence) (hproper : x.IsProper)
    (hnamed : AreNamed x.around) (hdeclared : x.isDeclared = true) :
    List.Forall₂ IsDeclarationOf ((x :: x.inside).filter (·.isDeclared))
      (declarationsOfType (scopeOf x.around) x.kind x.name x.arity x.members) := by
  rw [List.filter_cons_of_pos hdeclared, declarationsOfType_eq, enterType_scopeOf]
  refine .cons (isDeclarationOf_head hnamed) ?_
  -- Both sides now go through the types directly in the body, one after the other.
  rw [TypeOccurrence.inside, typesInMembers_eq, List.filter_flatMap,
    nested_collectMembers _ x.place x.aroundMembers 0, List.flatMap_map]
  refine forall₂_flatMap_filter (fun n hn hkind => ?_) (fun n hn hkind => ?_)
  · have hkind : n.type.kind ≠ .delegate := by simpa using hkind
    obtain ⟨haround, hn'⟩ := of_mem_nestedInMembers hproper.2 hn
    have hnamed' : AreNamed n.type.around := haround ▸ areNamed_type hnamed x.name x.arity
    have hlt := sizeOf_lt_of_mem_nested (x := x) hn hkind
    have hrest := forall₂_declarationsOfType n.type hn' hnamed' (isDeclared_of_kind hkind)
    rwa [haround] at hrest
  · have hkind : n.type.kind = .delegate := by simpa using hkind
    obtain ⟨haround, hn'⟩ := of_mem_nestedInMembers hproper.2 hn
    exact filter_isDeclared_eq_nil hn' hkind (haround ▸ typesOf_aroundMembers_ne_nil x)
termination_by sizeOf x.members

end Types

/-! ## declarations of outlines -/

section Items

theorem typesOf_namespace (around : List Surrounding) (name : String) :
    typesOf (around ++ [.namespace name]) = typesOf around := by simp [typesOf]

mutual
theorem forall₂_declarationsOfItem {around : List Surrounding} (hnamed : AreNamed around)
    (htypes : typesOf around = []) (place : List Nat) {item : Item} (h : item.isProper = true) :
    List.Forall₂ IsDeclarationOf ((typesInItem place around item).filter (·.isDeclared))
      (declarationsOfItem (scopeOf around) item) := by
  cases item with
  | «namespace» name items =>
    obtain ⟨hname, hitems⟩ : name ≠ "" ∧ areItemsProper items = true := by
      simpa [Item.isProper] using h
    rw [typesInItem, declarationsOfItem, enterNamespace_scopeOf hnamed]
    exact forall₂_declarationsOfItems (areNamed_namespace hnamed hname)
      (by rw [typesOf_namespace, htypes]) place 0 hitems
  | type kind name arity members =>
    have hproper : (⟨place, around, kind, name, arity, members⟩ : TypeOccurrence).IsProper := by
      simpa [Item.isProper, TypeOccurrence.IsProper, or_iff_not_imp_left] using h
    rw [typesInItem, declarationsOfItem]
    exact forall₂_declarationsOfType _ hproper hnamed
      (by simp [TypeOccurrence.isDeclared, htypes])
  | conditional items =>
    rw [typesInItem, declarationsOfItem]
    exact forall₂_declarationsOfItems hnamed htypes place 0 h
  | fileNamespace name | unreadable => exact .nil

/-- The declarations that come of items are those of the types with declarations
in them. -/
theorem forall₂_declarationsOfItems {around : List Surrounding} (hnamed : AreNamed around)
    (htypes : typesOf around = []) (place : List Nat) (index : Nat) {items : List Item}
    (h : areItemsProper items = true) :
    List.Forall₂ IsDeclarationOf ((typesInItems place around index items).filter (·.isDeclared))
      (declarationsOfItems (scopeOf around) items) := by
  cases items with
  | nil => exact .nil
  | cons item items =>
    obtain ⟨hitem, hitems⟩ := (Bool.and_eq_true _ _).to_iff.1 h
    cases item with
    | fileNamespace name =>
      have hname : name ≠ "" := by simpa [Item.isProper] using hitem
      rw [typesInItems, declarationsOfItems, enterNamespace_scopeOf hnamed]
      exact forall₂_declarationsOfItems (areNamed_namespace hnamed hname)
        (by rw [typesOf_namespace, htypes]) place (index + 1) hitems
    | _ =>
      rw [typesInItems, declarationsOfItems, List.filter_append]
      · exact List.rel_append (forall₂_declarationsOfItem hnamed htypes _ hitem)
          (forall₂_declarationsOfItems hnamed htypes place (index + 1) hitems)
      all_goals exact fun _ => Item.noConfusion
end

end Items

namespace CSharp.Outline

/-- The types of an outline that have declarations, in the order of the source. -/
def declaredTypes (o : Outline) : List TypeOccurrence := o.types.filter (·.isDeclared)

/-- No type is declared twice. -/
theorem nodup_declaredTypes (o : Outline) : o.declaredTypes.Nodup := by
  have hplaces : (o.declaredTypes.map TypeOccurrence.place).Pairwise (· < ·) :=
    List.pairwise_map.2 (o.pairwise_types.sublist List.filter_sublist)
  exact hplaces.nodup.of_map TypeOccurrence.place

/-- The declarations of a proper outline are those of its classes, records,
structs, interfaces and enums and of its delegates that are in no type, one for
each in the order of the source, and every member of theirs is documented under an
ID that goes on from that of its type.  A type in another one that is no delegate
has exactly one declaration, under the ID that it has as a member. -/
theorem declares_types {o : Outline} (ho : o.IsProper) :
    (o.types.Pairwise fun x y => x.place < y.place) ∧
      List.Forall₂ IsDeclarationOf o.declaredTypes o.declarations ∧
      ∀ x ∈ o.declaredTypes, ∀ n ∈ x.nested, n.type.kind ≠ .delegate →
        ∃ i : Nat, ∃ d, o.declarations[i]? = some d ∧ d.id = n.type.id ∧
          n.symbol.documentation = markup d.id n.lead.documentation ∧
          ∀ j, o.declaredTypes[j]? = some n.type ↔ j = i := by
  have hall : List.Forall₂ IsDeclarationOf o.declaredTypes o.declarations :=
    forall₂_declarationsOfItems areNamed_nil rfl [] 0 ho
  refine ⟨o.pairwise_types, hall, fun x hx n hn hkind => ?_⟩
  have hmem : n.type ∈ o.declaredTypes :=
    List.mem_filter.2 ⟨mem_types_of_mem_nested (List.mem_filter.1 hx).1 hn,
      isDeclared_of_kind hkind⟩
  obtain ⟨i, hi, heq⟩ := List.mem_iff_getElem.1 hmem
  have htype : o.declaredTypes[i]? = some n.type := by rw [List.getElem?_eq_getElem hi, heq]
  have hi' : i < o.declarations.length := hall.length_eq ▸ hi
  have hid : o.declarations[i].id = n.type.id := by
    rw [← heq]
    exact (hall.get hi hi').id_eq
  refine ⟨i, o.declarations[i], List.getElem?_eq_getElem hi', hid, by rw [hid]; rfl,
    fun j => ⟨fun hj => ?_, ?_⟩⟩
  · exact (List.getElem?_inj hi o.nodup_declaredTypes).1 (htype.trans hj.symm) |>.symm
  · rintro rfl
    exact htype

/-- The documentation in the declarations, told from the types. -/
theorem documentation_declarations {o : Outline} {ds : List TypeDeclaration}
    (h : List.Forall₂ IsDeclarationOf o.declaredTypes ds) :
    ds.map (·.members.map (·.documentation)) = o.declaredTypes.map fun x =>
      (declaredMembers x.members).map fun m => markup (m.id x.path) m.lead.documentation :=
  (map_eq_of_forall₂ h fun _ _ hd =>
    map_eq_of_forall₂ hd.members fun _ _ hm => hm.documentation_eq.symm).symm

/-- A generic type with a nested type and a nested delegate in a branch of a
conditional group, and a delegate in a namespace inside another one. -/
def layered : Outline where
  items := [
    .fileNamespace "A",
    .type .class "B" 1 [
      .property ⟨["/// <summary>Save</summary>"], ["static"]⟩ "P",
      .conditional [
        .type ⟨["// C", "/// <summary>", "///   Close", "/// </summary>", "////"], []⟩ .struct "C" 0
          [.fields ⟨["/// <summary>Open</summary>"], []⟩ ["f", "g"]],
        .type ⟨["/// <summary>Exit</summary>"], []⟩ .delegate "D" 0 []],
      .event ⟨["//// E"], []⟩ "E"],
    .namespace "E" [.type .delegate "F" 0 []]]
  balanced := true

/-- The IDs are those that the types and their members have where they stand, and are
written into the documentation of the members. -/
theorem declares_types_layered : layered.IsProper ∧
    layered.declarations.map (·.id) = ["T:A.B\x601", "T:A.B\x601.C", "T:A.E.F"] ∧
    layered.declarations.map (·.members.map (·.documentation)) =
      [["<member name=\"P:A.B\x601.P\">\n    <summary>Save</summary>\n</member>\n",
          "<member name=\"T:A.B\x601.C\">\n    <summary>\n      Close\n    </summary>\n</member>\n",
          "<member name=\"T:A.B\x601.D\">\n    <summary>Exit</summary>\n</member>\n", ""],
        ["<member name=\"F:A.B\x601.C.f\">\n    <summary>Open</summary>\n</member>\n",
          "<member name=\"F:A.B\x601.C.g\">\n    <summary>Open</summary>\n</member>\n"],
        []] := by
  have hproper : layered.IsProper := by decide
  obtain ⟨-, hall, -⟩ := declares_types hproper
  have hids : layered.declaredTypes.map TypeOccurrence.id = layered.declarations.map (·.id) :=
    map_eq_of_forall₂ hall fun _ _ h => h.id_eq.symm
  refine ⟨hproper, hids.symm.trans ?_, (documentation_declarations hall).trans ?_⟩
  · decide +kernel
  · decide +kernel

end CSharp.Outline

end ResourceAudit
