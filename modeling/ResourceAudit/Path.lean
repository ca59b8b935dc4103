import ResourceAudit.Text.Lines

/-!
# ResourceAudit.Path

Paths as they are written, seen as lists of components.  Repeated slashes,
slashes at the end and inner dots make no component, so paths of different text
may be the same path (`Path.same`); a text is kept, since it is what messages
show.  Order and prefixes go by component, never by character.
-/

namespace ResourceAudit

open ResourceAudit.Text

/-- A path as it is written. -/
structure Path where
  text : String
  deriving DecidableEq, Repr, Inhabited

/-! ## components -/

inductive Component where
  /-- The slash an absolute path begins with. -/
  | root
  /-- A dot at the beginning of a path. -/
  | here
  | up
  | name (text : String)
  deriving DecidableEq, Repr

def Component.text : Component → String
  | .root => "/"
  | .here => "."
  | .up => ".."
  | .name text => text

/-- What a path begins with, before its first piece. -/
inductive Anchor where
  | none
  | root
  | here
  deriving DecidableEq, Repr

/-- A path cut at the slashes behind its anchor. -/
structure Pieces where
  anchor : Anchor
  body : List (List Char)
  deriving DecidableEq, Repr

def Path.pieces (p : Path) : Pieces :=
  match p.text.toList with
  | '/' :: rest => ⟨.root, fields (· == '/') rest⟩
  | ['.'] => ⟨.here, []⟩
  | '.' :: '/' :: rest => ⟨.here, [] :: fields (· == '/') rest⟩
  | s => ⟨.none, fields (· == '/') s⟩

/-- Whether a piece makes no component. -/
def isVoid (piece : List Char) : Bool := piece == [] || piece == ['.']

def componentOf (piece : List Char) : Component :=
  if piece == ['.', '.'] then .up else .name (.ofList piece)

/-- The component an anchor makes. -/
def Anchor.components : Anchor → List Component
  | .none => []
  | .root => [.root]
  | .here => [.here]

def Anchor.text : Anchor → List Char
  | .none => []
  | .root => ['/']
  | .here => ['.']

def Pieces.components (p : Pieces) : List Component :=
  p.anchor.components ++ (p.body.filter (!isVoid ·)).map componentOf

/-- The path that pieces make up. -/
def Pieces.toPath (p : Pieces) : Path := ⟨.ofList (p.anchor.text ++ join ['/'] p.body)⟩

/-- The components of a path. -/
def Path.components (p : Path) : List Component := p.pieces.components

/-- Whether two texts write the same path. -/
def Path.same (p q : Path) : Bool := p.components == q.components

def Path.isAbsolute (p : Path) : Bool := p.pieces.anchor == .root

/-! ## order -/

/-- The order of components: anchors first, then steps up, then names. -/
def Component.rank : Component → Nat
  | .root => 0
  | .here => 1
  | .up => 2
  | .name _ => 3

def Component.compare (a b : Component) : Ordering :=
  match a, b with
  | .name s, .name t => compareOfLessAndEq s t
  | _, _ => compareOfLessAndEq a.rank b.rank

/-- Lists of components are compared from the front. -/
def compareComponents : List Component → List Component → Ordering
  | [], [] => .eq
  | [], _ :: _ => .lt
  | _ :: _, [] => .gt
  | a :: as, b :: bs => (a.compare b).then (compareComponents as bs)

/-- The order of paths, component by component. -/
def Path.compare (p q : Path) : Ordering := compareComponents p.components q.components

/-! ## joining and taking apart -/

/-- A path below another one.  An absolute path replaces the one before it. -/
def Path.join (p : Path) (below : String) : Path :=
  match below.toList.head?, p.text.toList.getLast? with
  | some '/', _ => ⟨below⟩
  | _, none => ⟨below⟩
  | _, some '/' => ⟨p.text ++ below⟩
  | _, some _ => ⟨p.text ++ "/" ++ below⟩

/-- The pieces up to the last one that makes a component. -/
def trimPieces (body : List (List Char)) : List (List Char) :=
  (body.reverse.dropWhile isVoid).reverse

/-- The path without its last component.  The root and the empty path have
none to drop. -/
def Path.parent (p : Path) : Option Path :=
  let pieces := p.pieces
  match trimPieces pieces.body, pieces.anchor with
  | [], .here => some ⟨""⟩
  | [], _ => none
  | body, anchor => some (Pieces.toPath ⟨anchor, trimPieces body.dropLast⟩)

/-- The last component, if it is a name. -/
def Path.fileName (p : Path) : Option String :=
  match p.components.getLast? with
  | some (.name text) => some text
  | _ => none

/-- A name before its last dot, and what follows it.  A dot at the beginning
divides nothing. -/
def divideName (name : List Char) : List Char × Option (List Char) :=
  let extension := (name.reverse.takeWhile (· != '.')).reverse
  let stem := name.take (name.length - extension.length - 1)
  if extension.length == name.length || stem.isEmpty then (name, none)
  else (stem, some extension)

/-- The file name without its extension. -/
def Path.stem (p : Path) : Option String :=
  p.fileName.map fun name => .ofList (divideName name.toList).1

/-- What follows the last dot of the file name. -/
def Path.extension (p : Path) : Option String :=
  p.fileName.bind fun name => (divideName name.toList).2.map .ofList

/-- Whether the components of a path begin with those of another one. -/
def Path.startsWith (p base : Path) : Bool := base.components.isPrefixOf p.components

/-- The pieces after the first so many that make components. -/
def dropPieces : Nat → List (List Char) → List (List Char)
  | 0, body => body.dropWhile isVoid
  | _, [] => []
  | n + 1, piece :: rest => if isVoid piece then dropPieces (n + 1) rest else dropPieces n rest

/-- The path relative to one that its components begin with. -/
def Path.stripPrefix (p base : Path) : Option Path :=
  let pieces := p.pieces
  let shared := base.components.length
  if !p.startsWith base then none
  else if shared = 0 then some (Pieces.toPath ⟨pieces.anchor, trimPieces pieces.body⟩)
  else
    let named := shared - pieces.anchor.components.length
    some (Pieces.toPath ⟨.none, trimPieces (dropPieces named pieces.body)⟩)

/-! ## texts -/

/-- A text with the slashes of either kind written as slashes. -/
def withSlashes (s : String) : String := s.map fun c => if c = '\\' then '/' else c

end ResourceAudit
