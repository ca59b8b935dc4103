import ResourceAudit.Path
import ResourceAudit.Resource.Reading
import ResourceAudit.Symbol

/-!
# ResourceAudit.Compilation

Compilations and the resources in them.  A compilation is a project built for
one target: the declarations of its sources, with the declarations of one type
merged into one symbol.  The scan for resources sees a compilation as a unit,
that is as a list of declarations with their symbols.  A declaration refers to
its symbol by the position the symbol had when the declaration was merged.
-/

namespace ResourceAudit

open CSharp (TypeKind)

/-! ## units -/

/-- A declaration with the type it declares. -/
structure DeclaredType where
  kind : TypeKind
  symbol : TypeSymbol
  deriving DecidableEq, Repr

/-- What is compiled together, with each of its type declarations in order. -/
structure CompiledUnit where
  name : String
  declared : List DeclaredType
  deriving DecidableEq, Repr

/-- The member that makes a type an accessor of resources. -/
def accessorMember : String := "ResourceManager"

/-- The kinds of types that may be accessors. -/
def mayBeAccessor : TypeKind → Bool
  | .class | .record | .struct => true
  | .interface | .enum | .delegate => false

/-- Whether a declaration declares an accessor of resources. -/
def DeclaredType.isAccessor (d : DeclaredType) : Bool :=
  mayBeAccessor d.kind && d.symbol.hasMember accessorMember

/-- The accessors of a unit, each once for every declaration. -/
def CompiledUnit.accessors (u : CompiledUnit) : List TypeSymbol :=
  (u.declared.filter (·.isAccessor)).map (·.symbol)

/-- The resource entries of a unit. -/
def CompiledUnit.entries (u : CompiledUnit) : List Entry := u.accessors.flatMap (·.entries)

/-- The resource entries of units, in order. -/
def collectEntries (units : List CompiledUnit) : List Entry := units.flatMap (·.entries)

/-- The table of the resources of units. -/
def buildTable (units : List CompiledUnit) : Table := Table.ofEntries (collectEntries units)

/-! ## compilations -/

/-- A source file with its declarations. -/
structure SourceFile where
  path : Path
  declarations : List TypeDeclaration
  /-- Whether part of the source could not be read. -/
  faulty : Bool
  deriving DecidableEq, Repr

/-- A declaration as a compilation keeps it: its kind, and the position of its
symbol. -/
structure DeclarationRef where
  kind : TypeKind
  position : Nat
  deriving DecidableEq, Repr

/-- The symbols of declarations, and a reference for each declaration. -/
structure SymbolTable where
  symbols : List TypeSymbol
  references : List DeclarationRef
  deriving DecidableEq, Repr

/-- Merges a declaration into the symbol it belongs to, or begins a new one. -/
def addDeclaration (symbols : List TypeSymbol) (d : TypeDeclaration) : List TypeSymbol :=
  match symbols with
  | [] => [⟨d.name, d.id, d.members⟩]
  | s :: rest =>
    if s.id = d.id then { s with members := s.members ++ d.members } :: rest
    else s :: addDeclaration rest d

/-- The position of the symbol of a declaration: where it is, or at the end,
where a new one begins. -/
def positionOf (symbols : List TypeSymbol) (d : TypeDeclaration) : Nat :=
  symbols.findIdx (·.id = d.id)

def SymbolTable.empty : SymbolTable := ⟨[], []⟩

/-- Adds a declaration, with the position its symbol has by then. -/
def SymbolTable.add (t : SymbolTable) (d : TypeDeclaration) : SymbolTable :=
  ⟨addDeclaration t.symbols d, t.references ++ [⟨d.kind, positionOf t.symbols d⟩]⟩

/-- The table of declarations that are added one after the other. -/
def SymbolTable.ofDeclarations (ds : List TypeDeclaration) : SymbolTable :=
  ds.foldl SymbolTable.add SymbolTable.empty

/-- The declarations with the symbols at the positions they refer to. -/
def SymbolTable.declared (t : SymbolTable) : List DeclaredType :=
  t.references.filterMap fun r => t.symbols[r.position]?.map fun symbol => ⟨r.kind, symbol⟩

structure Compilation where
  project : String
  target : Option String
  files : List SourceFile
  deriving DecidableEq, Repr

/-- A project with its target. -/
def Compilation.displayName (c : Compilation) : String :=
  match c.target with
  | some target => s!"{c.project} ({target})"
  | none => c.project

def Compilation.declarations (c : Compilation) : List TypeDeclaration :=
  c.files.flatMap (·.declarations)

/-- The declarations of a compilation, merged. -/
def Compilation.symbolTable (c : Compilation) : SymbolTable := .ofDeclarations c.declarations

/-- The types of a compilation, in the order in which they come first. -/
def Compilation.symbols (c : Compilation) : List TypeSymbol := c.symbolTable.symbols

/-- A compilation as it is scanned for resources. -/
def Compilation.unit (c : Compilation) : CompiledUnit := ⟨c.displayName, c.symbolTable.declared⟩

end ResourceAudit
