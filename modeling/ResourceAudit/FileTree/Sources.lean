import ResourceAudit.FileTree

/-!
# ResourceAudit.FileTree.Sources

The C# source files below a directory.  `scanSources` finds the files a project
compiles by default and passes over the directories it never compiles from;
`scanGenerated` finds all of them.  Links inside the directory are not
followed, and files come in the order of paths.
-/

namespace ResourceAudit

/-- Whether a path is that of a C# source file. -/
def Path.isSource (p : Path) : Bool :=
  p.extension.any fun e => e.toList.map Char.toLower == "cs".toList

/-- Sorts paths component by component. -/
def sortPaths (paths : List Path) : List Path := paths.mergeSort fun p q => (p.compare q).isLE

mutual
/-- The regular files below a node that is at a path, in directories that
satisfy `enters`, which is given their depth and name. -/
def filesOf (enters : Nat → String → Bool) (depth : Nat) (p : Path) : Node → List Path
  | .file _ => [p]
  | .link _ => []
  | .dir entries => filesOfEntries enters (depth + 1) p entries

def filesOfEntries (enters : Nat → String → Bool) (depth : Nat) (p : Path) :
    List (String × Node) → List Path
  | [] => []
  | (name, node) :: rest =>
    let below :=
      if node.isDir && !enters depth name then [] else filesOf enters depth (p.join name) node
    below ++ filesOfEntries enters depth p rest
end

/-- The regular files below a path.  A link at the path itself is followed, but
only to a directory. -/
def FileTree.filesBelow (t : FileTree) (enters : Nat → String → Bool) (p : Path) :
    Except FileFault (List Path) := do
  match ← t.resolve false p with
  | (_, .link _) =>
    match ← t.resolve true p with
    | (_, .dir entries) => return filesOfEntries enters 1 p entries
    | _ => return []
  | (_, node) => return filesOf enters 0 p node

/-- The directories directly below a project that hold what its builds made. -/
def outputDirs : List String := ["bin", "obj"]

/-- Whether default sources are looked for in a directory, given its depth
below the project and its name. -/
def isSourceDir (depth : Nat) (name : String) : Bool :=
  name.toList.head? != some '.' && !(depth == 1 && outputDirs.contains name)

/-- The default sources of the project in a directory, or why they cannot be
looked for. -/
def FileTree.scanSources (t : FileTree) (dir : Path) : Except FileFault (List Path) :=
  (t.filesBelow isSourceDir dir).map fun files => sortPaths (files.filter Path.isSource)

/-- The sources that builds have left below a directory; none if there is no
such directory. -/
def FileTree.scanGenerated (t : FileTree) (dir : Path) : List Path :=
  match t.filesBelow (fun _ _ => true) dir with
  | .ok files => if t.isDir dir then sortPaths (files.filter Path.isSource) else []
  | .error _ => []

end ResourceAudit
