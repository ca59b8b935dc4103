import ResourceAudit.FileTree.Sources
import ResourceAudit.Glob.Search
import ResourceAudit.Ignore
import ResourceAudit.Path.Normal
import ResourceAudit.Project
import ResourceAudit.Warning

/-!
# ResourceAudit.Project.Sources

The source files of a project for one target.  They start with the default
sources of the project directory, are changed by the compile items one after
the other, and end with the sources that builds have generated for the target;
ignored files are left out last.
-/

namespace ResourceAudit

open ResourceAudit.Text

/-! ## sets of files -/

/-- Adds a file to files of which no two are the same path; the spelling that
is there first stays. -/
def addFile (files : List Path) (file : Path) : List Path :=
  if files.any file.same then files else files ++ [file]

def addFiles (files new : List Path) : List Path := new.foldl addFile files

/-! ## items -/

/-- The path an item names, in the directory of its project. -/
def itemPath (dir : Path) (spec : String) : Path := (dir.join (withSlashes spec)).normalize

/-- The files a part of an including item names, and what to warn about. -/
def includedFiles (t : FileTree) (dir : Path) (spec : String) : List Path × List Warning :=
  let full := itemPath dir spec
  if Glob.hasWildcard spec then
    match Glob.search t full.text with
    | .ok found =>
      ((found.filter fun p => t.isFile p && p.isSource).map Path.normalize, [])
    | .error fault => ([], [.invalidInclude spec fault])
  else if t.isFile full then ([full], [])
  else ([], [.missingInclude full])

/-- Whether a removing item that names `target` concerns a file. -/
def isRemoved (target file : Path) : Bool :=
  if Glob.hasWildcard target.text then
    match Glob.Pattern.ofText target.text with
    | .ok pattern => pattern.matches file.text
    | .error _ => false
  else target.same file

/-- The sources that have been found, with what to warn about. -/
structure Gathered where
  files : List Path
  warnings : List Warning
  deriving DecidableEq, Repr

/-- The parts of an item, with references replaced. -/
def itemParts (p : Properties) (spec : String) : List String := splitList (p.expand spec)

/-- Adds or removes the files of one item. -/
def applyItem (t : FileTree) (dir : Path) (p : Properties) (verbose : Bool) (g : Gathered) :
    CompileItem → Gathered
  | .include spec =>
    (itemParts p spec).foldl (fun g part =>
      let (files, warnings) := includedFiles t dir part
      ⟨addFiles g.files files, g.warnings ++ if verbose then warnings else []⟩) g
  | .remove spec =>
    (itemParts p spec).foldl (fun g part =>
      { g with files := g.files.filter (!isRemoved (itemPath dir part) ·) }) g

/-! ## directories -/

/-- A path without slashes of either kind at its end. -/
def withoutEndSlashes (s : String) : String :=
  .ofList ((s.toList.reverse.dropWhile fun c => c == '/' || c == '\\').reverse)

/-- The directory that builds leave the generated sources of a target in. -/
def Project.outputDir (project : Project) (p : Properties) : Path :=
  let base := match p.get? "intermediateoutputpath" with
    | some path => withoutEndSlashes path
    | none =>
      withoutEndSlashes ((p.get? "baseintermediateoutputpath").getD "obj") ++ "/" ++
        (p.get? "configuration").getD "Debug"
  let framework := (p.get? "targetframework").filter fun _ =>
    !p.isFalse "AppendTargetFrameworkToOutputPath"
  itemPath project.dir (base ++ "/" ++ framework.elim "" (· ++ "/"))

/-- Whether a project compiles the sources in its directory without naming
them. -/
def Project.hasDefaultItems (project : Project) : Bool :=
  project.sdkStyle && !project.properties.isFalse "EnableDefaultItems" &&
    !project.properties.isFalse "EnableDefaultCompileItems"

/-- The default sources of a project. -/
def Project.defaultSources (project : Project) (t : FileTree) (verbose : Bool) : Gathered :=
  if !project.hasDefaultItems then ⟨[], []⟩
  else match t.scanSources project.dir with
    | .ok files => ⟨files, []⟩
    | .error fault =>
      ⟨[], (if verbose then [.inaccessible project.dir fault] else []) ++
        [.skipped 1 project.dir (!verbose)]⟩

/-! ## sources -/

/-- The properties of a project that is built for a target. -/
def Project.propertiesFor (project : Project) (target : Option String) : Properties :=
  match target with
  | some framework => project.properties.set "targetframework" framework
  | none => project.properties

/-- The sources of a project that is built for a target, in order. -/
def Project.sources (project : Project) (t : FileTree) (target : Option String)
    (ignores : IgnoreSet) (verbose : Bool) : Gathered :=
  let p := project.propertiesFor target
  let start := project.defaultSources t verbose
  let changed := project.items.foldl (applyItem t project.dir p verbose) start
  let files := addFiles changed.files (t.scanGenerated (project.outputDir p))
  ⟨(sortPaths files).filter (!ignores.ignores ·), changed.warnings⟩

end ResourceAudit
