import ResourceAudit.FileTree
import ResourceAudit.Glob.Pattern

/-!
# ResourceAudit.Glob.Search

The paths of a file tree that a pattern names, component by component.  A
component without wildcards is looked up; one with wildcards is matched against
the names in a directory, and links to directories are entered.  The recursive
wildcard stands for the directories on the way down, and at the end of a
pattern for these directories themselves.
-/

namespace ResourceAudit.Glob

open ResourceAudit.Text

/-- A path that has been found, and whether it is a directory. -/
structure Found where
  path : Path
  isDir : Bool
  deriving DecidableEq, Repr

def foundAt (t : FileTree) (p : Path) : Found := ⟨p, t.isDir p⟩

/-- The path of a name in a directory.  Names in the working directory are
written alone. -/
def nameIn (dir : Path) (name : String) : Path := if dir.same ⟨"."⟩ then ⟨name⟩ else dir.join name

/-- What the components of a pattern name in a directory, going down at most
`fuel` times. -/
def searchIn (t : FileTree) : Nat → List Pattern → Found → List Path
  | 0, _, _ => []
  | _, [], _ => []
  | fuel + 1, pattern :: rest, dir =>
    let down (rest : List Pattern) (found : Found) : List Path :=
      if rest.isEmpty then [found.path] else searchIn t fuel rest found
    match pattern.literal? with
    | some name =>
      let next := nameIn dir.path name
      let isThere :=
        if name == "." || name == ".." then dir.isDir
        else t.exists next || (t.resolve false next).toOption.isSome
      if isThere then down rest (foundAt t next) else []
    | none =>
      let matchName (patterns : List Pattern) (found : Found) : List Path :=
        match patterns, found.path.fileName with
        | pattern :: rest, some name => if pattern.matches name then down rest found else []
        | _, _ => []
      let visit (child : Found) : List Path :=
        if pattern.isRecursive then
          let after := rest.dropWhile Pattern.isRecursive
          let deeper := if child.isDir then searchIn t fuel (pattern :: after) child else []
          let here :=
            if after.isEmpty then (if child.isDir then [child.path] else [])
            else matchName after child
          deeper ++ here
        else matchName (pattern :: rest) child
      let specials :=
        if pattern.tokens.head? == some (.char '.') then [".", ".."].filter pattern.matches else []
      if dir.isDir then
        ((t.list? dir.path).getD []).flatMap
            (fun (name, _) => visit (foundAt t (nameIn dir.path name)))
          ++ specials.flatMap fun name => down rest (foundAt t (dir.path.join name))
      else []

/-- The patterns of the components of a path with wildcards. -/
def componentPatterns (s : String) : Except Fault (List Pattern) := do
  discard (Pattern.ofText s)
  let pieces := (fields (· == '/') s.toList).filter (!·.isEmpty)
  pieces.mapM fun piece => Pattern.ofText (.ofList piece)

/-- The paths that a pattern names.  No way down is longer than the height of
the tree for each link that may be followed. -/
def search (t : FileTree) (s : String) : Except Fault (List Path) := do
  let patterns ← componentPatterns s
  let start : Path := if s.toList.head? = some '/' then ⟨"/"⟩ else ⟨"."⟩
  let fuel := patterns.length + (t.root.height + 2) * (maxLinks + 2)
  return searchIn t fuel patterns (foundAt t start)

end ResourceAudit.Glob
