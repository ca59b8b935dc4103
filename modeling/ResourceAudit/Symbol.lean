import ResourceAudit.CSharp.Outline

/-!
# ResourceAudit.Symbol

Types and members as they are known by their documentation IDs.  A declaration
is one place in a source where a type is declared; a type symbol is the type,
with the members of all its declarations.
-/

namespace ResourceAudit

open CSharp (TypeKind)

inductive MemberKind where
  | field
  | property
  | method
  | event
  | nestedType
  deriving DecidableEq, Repr

/-- A member of a type. -/
structure MemberSymbol where
  name : String
  kind : MemberKind
  /-- Constants and members of enumerations are static. -/
  isStatic : Bool
  /-- The documentation as markup, empty if there is none. -/
  documentation : String
  deriving DecidableEq, Repr

/-- A declaration of a type with the members it holds itself. -/
structure TypeDeclaration where
  kind : TypeKind
  name : String
  /-- The documentation ID, which is what identifies the type. -/
  id : String
  members : List MemberSymbol
  deriving DecidableEq, Repr

/-- A type with the members of all its declarations. -/
structure TypeSymbol where
  name : String
  id : String
  members : List MemberSymbol
  deriving DecidableEq, Repr

def TypeSymbol.memberNames (t : TypeSymbol) : List String := t.members.map (·.name)

/-- Whether a type has a member of the given name. -/
def TypeSymbol.hasMember (t : TypeSymbol) (name : String) : Bool := t.memberNames.contains name

end ResourceAudit
