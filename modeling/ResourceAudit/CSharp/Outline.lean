/-!
# ResourceAudit.CSharp.Outline

The outline of a C# source: its namespaces and types with their members, and
nothing of bodies and initialisers.  An outline keeps the comments before each
member and the written types of parameters, which documentation is made from.
-/

namespace ResourceAudit.CSharp

/-- The kinds of type declarations. -/
inductive TypeKind where
  | «class»
  /-- Any of `record`, `record class` and `record struct`. -/
  | record
  | struct
  | interface
  | enum
  | delegate
  deriving DecidableEq, Repr

/-- A parameter of a method, a constructor or an indexer. -/
structure Parameter where
  modifiers : List String
  /-- The type as written, without white space between its tokens. -/
  type : String
  deriving DecidableEq, Repr

/-- Whether the parameter takes any number of arguments. -/
def Parameter.isVariadic (p : Parameter) : Bool := p.modifiers.contains "params"

/-- Whether the parameter is passed by reference. -/
def Parameter.isByRef (p : Parameter) : Bool :=
  p.modifiers.any ["ref", "out", "in"].contains

/-- What stands before the name or the type of a member. -/
structure Lead where
  /-- The comments directly before the member, in order. -/
  comments : List String
  modifiers : List String
  deriving DecidableEq, Repr

/-- What may stand in the body of a type. -/
inductive Member where
  | fields (lead : Lead) (names : List String)
  /-- Events written like fields. -/
  | fieldEvents (lead : Lead) (names : List String)
  /-- A member of an enumeration. -/
  | constant (lead : Lead) (name : String)
  | property (lead : Lead) (name : String)
  | indexer (lead : Lead) (parameters : List Parameter)
  /-- An event with accessors of its own. -/
  | event (lead : Lead) (name : String)
  | method (lead : Lead) (name : String) (arity : Nat) (parameters : List Parameter)
  | constructor (lead : Lead) (parameters : List Parameter)
  | type (lead : Lead) (kind : TypeKind) (name : String) (arity : Nat) (members : List Member)
  /-- A branch of a conditional group of preprocessor lines; the branch after
  it, if there is one, is its last member. -/
  | conditional (members : List Member)
  /-- A stretch of source that no member can be read from. -/
  | unreadable

/-- What may stand in a file or in a namespace. -/
inductive Item where
  | namespace (name : String) (items : List Item)
  /-- A namespace that holds everything after it. -/
  | fileNamespace (name : String)
  | type (kind : TypeKind) (name : String) (arity : Nat) (members : List Member)
  /-- A branch of a conditional group of preprocessor lines; the branch after
  it, if there is one, is its last item. -/
  | conditional (items : List Item)
  /-- A stretch of source that no item can be read from. -/
  | unreadable

/-! ## faults -/

mutual
/-- Whether part of a member is unreadable. -/
def Member.isFaulty : Member → Bool
  | .type _ _ _ _ members => anyMemberFaulty members
  | .conditional members => anyMemberFaulty members
  | .unreadable => true
  | _ => false

def anyMemberFaulty : List Member → Bool
  | [] => false
  | member :: rest => member.isFaulty || anyMemberFaulty rest
end

mutual
/-- Whether part of an item is unreadable. -/
def Item.isFaulty : Item → Bool
  | .namespace _ items => anyItemFaulty items
  | .type _ _ _ members => anyMemberFaulty members
  | .conditional items => anyItemFaulty items
  | .unreadable => true
  | .fileNamespace _ => false

def anyItemFaulty : List Item → Bool
  | [] => false
  | item :: rest => item.isFaulty || anyItemFaulty rest
end

end ResourceAudit.CSharp
