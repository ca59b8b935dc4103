import ResourceAudit.FileTree
import ResourceAudit.Project
import ResourceAudit.Xml.Document

/-!
# ResourceAudit.Solution

Solution files and the C# projects they list.  A solution is written either as
lines (`projectsOfText`) or as XML (`projectsOfXml`); other projects and folders
are passed over, and a project that is listed again counts once.
-/

namespace ResourceAudit

open ResourceAudit.Text ResourceAudit.Xml

structure Solution where
  path : Path
  /-- The C# projects in the order of the file. -/
  projects : List ProjectReference
  deriving DecidableEq, Repr

def Solution.dir (s : Solution) : Path := s.path.directory

/-- Whether a path as written in a solution is that of a C# project. -/
def isProjectPath (relative : List Char) : Bool :=
  ".csproj".toList.reverse.isPrefixOf (relative.map Char.toLower).reverse

/-- The path of a project, as written in a solution in the given directory. -/
def projectPath (dir : Path) (relative : List Char) : Path :=
  dir.join (withSlashes (.ofList relative))

/-! ## lines -/

/-- The text behind white space and a pattern. -/
def afterSpaced (pattern : String) (s : List Char) : Option (List Char) :=
  afterPattern pattern.toList (trimStart s)

/-- The text in double quotes behind white space, and the text after it. -/
def takeQuoted (s : List Char) : Option (List Char × List Char) := do
  cutAt ['"'] (← afterSpaced "\"" s)

/-- The name and the path that a line gives for a project. -/
def projectLine? (line : List Char) : Option (List Char × List Char) := do
  let s ← afterSpaced "Project(\"\x7b" line
  let (_, s) ← cutAt ['}'] s
  let s ← afterPattern "\")".toList s
  let (name, s) ← takeQuoted (← afterSpaced "=" s)
  let (path, s) ← takeQuoted (← afterSpaced "," s)
  let s ← afterSpaced "\"\x7b" (← afterSpaced "," s)
  let (_, s) ← cutAt ['}'] s
  discard (afterPattern ['"'] s)
  return (name, path)

/-- The C# projects that the lines of a solution list. -/
def projectsOfText (dir : Path) (text : String) : List ProjectReference :=
  ((lines text.toList).filterMap projectLine?).filterMap fun (name, path) =>
    if isProjectPath path then some ⟨.ofList name, projectPath dir path⟩ else none

/-! ## XML -/

/-- Why the XML of a solution cannot be read. -/
inductive SolutionXmlFault where
  | markup (fault : MarkupFault)
  | attribute (fault : AttributeFault)
  | reference (fault : ReferenceFault)
  deriving DecidableEq, Repr

def SolutionXmlFault.message : SolutionXmlFault → String
  | .markup fault => fault.message
  | .attribute fault => "error while parsing attribute: " ++ fault.message
  | .reference fault => fault.message

/-- The C# project that an element of a solution lists. -/
def projectElement? (dir : Path) (tag : Tag) :
    Except SolutionXmlFault (Option ProjectReference) := do
  if tag.name ≠ "Project".toList then return none
  match ← (tag.attribute? "Path").mapError .attribute with
  | none => return none
  | some a =>
    let relative ← (expand a.rawValue).mapError .reference
    if isProjectPath relative then
      let path := projectPath dir relative
      return some ⟨path.stem.getD "", path⟩
    else return none

/-- The C# projects that parts of a document list. -/
def projectsOfEvents (dir : Path) : List Event → Except SolutionXmlFault (List ProjectReference)
  | [] => .ok []
  | .opened tag :: rest | .empty tag :: rest => do
    let project ← projectElement? dir tag
    return project.toList ++ (← projectsOfEvents dir rest)
  | _ :: rest => projectsOfEvents dir rest

/-- The C# projects that the XML of a solution lists. -/
def projectsOfXml (dir : Path) (text : String) :
    Except SolutionXmlFault (List ProjectReference) := do
  let document := Document.ofText text.toList
  let projects ← projectsOfEvents dir document.events
  match document.fault with
  | some fault => throw (.markup fault)
  | none => return projects

/-! ## files -/

/-- Why a solution cannot be loaded. -/
inductive SolutionFault where
  | missing
  | unreadable (fault : FileFault)
  | xml (fault : SolutionXmlFault)
  | noHeader
  deriving DecidableEq, Repr

def SolutionFault.message : SolutionFault → String
  | .missing => "file does not exist"
  | .unreadable fault => fault.message
  | .xml fault => fault.message
  | .noHeader => "not a Visual Studio solution file"

/-- What a solution of lines says about itself. -/
def solutionHeader : String := "Microsoft Visual Studio Solution File"

/-- Projects without those whose path one before them has. -/
def distinctProjects (seen : List Path) : List ProjectReference → List ProjectReference
  | [] => []
  | project :: rest =>
    if seen.any project.path.same then distinctProjects seen rest
    else project :: distinctProjects (project.path :: seen) rest

/-- Whether the extension of a path says that it is an XML solution. -/
def isXmlSolution (path : Path) : Bool :=
  path.extension.any fun e => e.toList.map Char.toLower == "slnx".toList

/-- The solution in a file. -/
def Solution.load (t : FileTree) (path : Path) : Except SolutionFault Solution := do
  if !t.isFile path then throw .missing
  let text ← (t.read path).mapError .unreadable
  let projects ←
    if isXmlSolution path then (projectsOfXml path.directory text).mapError .xml
    else if holds solutionHeader.toList text.toList then
      pure (projectsOfText path.directory text)
    else throw .noHeader
  return ⟨path, distinctProjects [] projects⟩

/-- What is found in a solution that is written as lines. -/
theorem Solution.load_of_text {t : FileTree} {p : Path} {text : String} (hfile : t.isFile p = true)
    (hread : t.read p = .ok text) (hxml : isXmlSolution p = false)
    (hheader : holds solutionHeader.toList text.toList = true) :
    Solution.load t p = .ok ⟨p, distinctProjects [] (projectsOfText p.directory text)⟩ := by
  have hfound : ¬(!t.isFile p) = true := by simp [hfile]
  have hlines : ¬isXmlSolution p = true := by simp [hxml]
  rw [Solution.load, if_neg hfound, hread]
  exact (if_neg hlines).trans (if_pos hheader)

end ResourceAudit
