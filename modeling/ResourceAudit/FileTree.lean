import ResourceAudit.Path

/-!
# ResourceAudit.FileTree

A file tree as a value: directories, regular files and symbolic links, with a
working directory.  `FileTree.resolve` finds the place a path leads to, through
links; every question a program asks about files is put to it.  The tree does
not change while it is being asked.
-/

namespace ResourceAudit

open ResourceAudit.Text

/-- What a name in a directory stands for. -/
inductive Node where
  | file (bytes : ByteArray)
  | link (target : String)
  | dir (entries : List (String × Node))

instance : Inhabited Node := ⟨.dir []⟩

/-- Why a file cannot be read. -/
inductive FileFault where
  | notFound
  | notDirectory
  | isDirectory
  | tooManyLinks
  | notText
  deriving DecidableEq, Repr

def FileFault.message : FileFault → String
  | .notFound => "No such file or directory (os error 2)"
  | .notDirectory => "Not a directory (os error 20)"
  | .isDirectory => "Is a directory (os error 21)"
  | .tooManyLinks => "Too many levels of symbolic links (os error 40)"
  | .notText => "stream did not contain valid UTF-8"

/-- A place in a tree, as the names on the way to it from the root. -/
abbrev Place := List String

structure FileTree where
  root : Node
  /-- The place relative paths start from. -/
  here : Place

/-! ## nodes -/

/-- The entry of a directory with the given name. -/
def Node.child? (node : Node) (name : String) : Option Node :=
  match node with
  | .dir entries => entries.lookup name
  | _ => none

/-- The node at a place below another one. -/
def Node.at? : Node → Place → Option Node
  | node, [] => some node
  | node, name :: rest => (node.child? name).bind (·.at? rest)

def Node.isDir : Node → Bool
  | .dir _ => true
  | _ => false

def Node.isFile : Node → Bool
  | .file _ => true
  | _ => false

/-- Puts a node at a place, with the directories on the way. -/
def Node.put (node : Node) (new : Node) : Place → Node
  | [] => new
  | name :: rest =>
    let entries := match node with
      | .dir entries => entries
      | _ => []
    let inner := ((entries.lookup name).getD (.dir [])).put new rest
    if entries.any (·.1 == name) then
      .dir (entries.map fun (n, old) => if n == name then (n, inner) else (n, old))
    else .dir (entries ++ [(name, inner)])

mutual
/-- The greatest number of names on a way down from a node. -/
def Node.height : Node → Nat
  | .dir entries => heightOfEntries entries + 1
  | _ => 0

def heightOfEntries : List (String × Node) → Nat
  | [] => 0
  | (_, node) :: rest => max node.height (heightOfEntries rest)
end

/-! ## resolving paths -/

/-- The number of links that may be followed on the way to one place. -/
def maxLinks : Nat := 40

/-- Where pieces lead to from a place, and what is there.  A link at the end is
followed only if `followLast` holds; a piece that names nothing still asks for
a directory before it. -/
def Node.walk (root : Node) (followLast : Bool) (links : Nat) (place : Place)
    (pieces : List String) : Except FileFault (Place × Node) :=
  match pieces with
  | [] => match root.at? place with
    | some node => .ok (place, node)
    | none => .error .notFound
  | piece :: rest =>
    match root.at? place with
    | some (.dir entries) =>
      if piece = "" ∨ piece = "." then root.walk followLast links place rest
      else if piece = ".." then root.walk followLast links place.dropLast rest
      else match entries.lookup piece with
        | none => .error .notFound
        | some (.link target) =>
          if rest.isEmpty && !followLast then .ok (place ++ [piece], .link target)
          else match links with
            | 0 => .error .tooManyLinks
            | links + 1 =>
              let start := if target.toList.head? = some '/' then [] else place
              let inner := (fields (· == '/') target.toList).map String.ofList
              if target.isEmpty then .error .notFound
              else root.walk followLast links start (inner ++ rest)
        | some _ => root.walk followLast links (place ++ [piece]) rest
    | some _ => .error .notDirectory
    | none => .error .notFound
termination_by (links, pieces.length)

/-- The place a path leads to, and what is there. -/
def FileTree.resolve (t : FileTree) (followLast : Bool) (p : Path) :
    Except FileFault (Place × Node) :=
  let start := if p.isAbsolute then [] else t.here
  if p.text.isEmpty then .error .notFound
  else t.root.walk followLast maxLinks start ((fields (· == '/') p.text.toList).map String.ofList)

/-! ## questions -/

/-- What a path leads to, through links. -/
def FileTree.node? (t : FileTree) (p : Path) : Option Node := (t.resolve true p).toOption.map (·.2)

def FileTree.exists (t : FileTree) (p : Path) : Bool := (t.node? p).isSome

def FileTree.isFile (t : FileTree) (p : Path) : Bool := (t.node? p).any Node.isFile

def FileTree.isDir (t : FileTree) (p : Path) : Bool := (t.node? p).any Node.isDir

/-- The names in a directory. -/
def FileTree.list? (t : FileTree) (p : Path) : Option (List (String × Node)) :=
  match t.node? p with
  | some (.dir entries) => some entries
  | _ => none

/-- The text of a file. -/
def FileTree.read (t : FileTree) (p : Path) : Except FileFault String :=
  match t.resolve true p with
  | .error fault => .error fault
  | .ok (_, .file bytes) => (String.fromUTF8? bytes).elim (.error .notText) .ok
  | .ok (_, .dir _) => .error .isDirectory
  | .ok (_, .link _) => .error .tooManyLinks

/-- The path of a place. -/
def Place.toPath (place : Place) : Path := ⟨"/" ++ "/".intercalate place⟩

/-- The path without links, dots and steps up, of what a path leads to. -/
def FileTree.canonical? (t : FileTree) (p : Path) : Option Path :=
  (t.resolve true p).toOption.map (·.1.toPath)

/-- The path of the working directory. -/
def FileTree.herePath (t : FileTree) : Path := Place.toPath t.here

end ResourceAudit
