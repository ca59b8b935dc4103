import ResourceAudit.Proofs.Solution.Lines
import ResourceAudit.Proofs.Xml.Element
import ResourceAudit.Proofs.Xml.Escape

/-!
# ResourceAudit.Proofs.Solution.Formats

The two formats of a solution list the same projects.  A solution of XML is a
forest, in which each element of the name `Project` gives a path, at any depth
and however it is spelled.  Reading it gives the C# projects at these paths
(`projectsOfXml_source`), and so does reading lines that list the same paths
(`projectsOfText_agrees_projectsOfXml`), except where the file stem that a line
tells holds a double quote.  That takes a path such as a dot, whose stem is that
of the directory: `projectsOfText_quotedDirectory` is such a case.
-/

namespace ResourceAudit

open ResourceAudit.Text ResourceAudit.Xml

/-! ## projects in a forest -/

namespace Xml

/-- The path that an element gives for a project. -/
def WrittenTag.projectPath? (t : WrittenTag) : Option (List Char) :=
  if t.name.chars = "Project".toList then t.value? "Path" else none

/-- The paths of the projects in a forest, at any depth. -/
def Forest.projectPaths (f : Forest) : List (List Char) :=
  f.tags.filterMap WrittenTag.projectPath?

/-- The tag of a project, with its path escaped. -/
def projectTag (path : List Char) : WrittenTag :=
  ⟨.ofList "Project".toList rfl, [.escaped (.ofList "Path".toList rfl) path], .none⟩

/-- The element of a project in front of what comes next. -/
theorem source_project (path : List Char) (next : Forest) :
    (Forest.empty (projectTag path) next).source =
      "<Project Path=\"".toList ++ escape path ++ "\"/>".toList ++ next.source := by
  have hcontent : (projectTag path).content =
      "Project Path=\"".toList ++ written (spell path) ++ ['"'] ++ [] ++ [] := rfl
  rw [Forest.source, hcontent, List.append_nil, List.append_nil, written_spell]
  simp only [List.append_assoc, List.cons_append]
  rfl

theorem projectPaths_empty (tag : WrittenTag) (next : Forest) :
    (Forest.empty tag next).projectPaths = tag.projectPath?.toList ++ next.projectPaths := by
  rw [Forest.projectPaths, Forest.tags, List.filterMap_cons]
  cases tag.projectPath? <;> rfl

theorem projectPaths_element (tag : WrittenTag) (content : Forest) (gap : Gap) (next : Forest) :
    (Forest.element tag content gap next).projectPaths =
      tag.projectPath?.toList ++ (content.projectPaths ++ next.projectPaths) := by
  rw [Forest.projectPaths, Forest.tags, List.cons_append, List.filterMap_cons,
    List.filterMap_append]
  cases tag.projectPath? <;> rfl

theorem projectPath?_projectTag (path : List Char) : (projectTag path).projectPath? = some path := by
  have hfind : (projectTag path).value? "Path" = some (meant (spell path)) := rfl
  have hname : (projectTag path).name.chars = "Project".toList := rfl
  rw [WrittenTag.projectPath?, if_pos hname, hfind, meant_spell]

end Xml

/-! ## reading a forest -/

section Reading

variable {dir : Path}

/-- The C# project at a path. -/
def projectAt? (dir : Path) (path : List Char) : Option ProjectReference :=
  if isProjectPath path then some ⟨(projectPath dir path).stem.getD "", projectPath dir path⟩
  else none

theorem projectElement?_tag (t : WrittenTag) :
    projectElement? dir t.tag = .ok (t.projectPath?.bind (projectAt? dir)) := by
  rw [projectElement?, WrittenTag.name_tag, WrittenTag.projectPath?]
  by_cases hname : t.name.chars = "Project".toList
  · rw [if_neg (not_not_intro hname), if_pos hname, t.attribute?_tag, WrittenTag.value?]
    cases hattribute : t.find? "Path" with
    | none => rfl
    | some a =>
      rw [Option.map_some]
      change (expand (written a.value)).mapError SolutionXmlFault.reference >>= _ = _
      rw [expand_written]
      change (if isProjectPath (meant a.value) then _ else _) =
        Except.ok (projectAt? dir (meant a.value))
      unfold projectAt?
      split <;> rfl
  · rw [if_pos hname, if_neg hname]
    rfl

/-- Character data lists no projects. -/
theorem projectsOfEvents_prependText (raw : List Char) (d : Document) :
    projectsOfEvents dir (d.prependText raw).events = projectsOfEvents dir d.events := by
  unfold Document.prependText
  split
  · rfl
  · split
    · next hd => rw [hd]; rfl
    · rfl

theorem projectsOfEvents_precede (events : List Event) (d : Document) :
    projectsOfEvents dir (d.precede events).events = projectsOfEvents dir (events ++ d.events) := by
  induction events with
  | nil => rfl
  | cons event rest ih =>
    rw [Document.precede_cons, List.cons_append]
    cases event with
    | text raw => rw [Document.prepend, projectsOfEvents_prependText, ih]; rfl
    | «opened» tag | empty tag =>
      change projectsOfEvents dir (_ :: (d.precede rest).events) = _
      rw [projectsOfEvents, projectsOfEvents, ih]
    | _ => exact ih

/-- A byte order mark lists no projects. -/
theorem projectsOfEvents_ofText (s : List Char) :
    projectsOfEvents dir (Document.ofText s).events = projectsOfEvents dir (readFrom [] s).events := by
  unfold Document.ofText
  split
  · next rest =>
    have hread := readFrom_append [] (show '<' ∉ ['\uFEFF'] by decide) rest
    rw [← List.singleton_append, hread, projectsOfEvents_prependText]
  · rfl

/-- What a solution of XML lists, from the events of its text. -/
theorem projectsOfXml_ofList (dir : Path) (s : List Char) :
    projectsOfXml dir (.ofList s) =
      projectsOfEvents dir (readFrom [] s).events >>= fun projects =>
        match (readFrom [] s).fault with
        | some fault => .error (.markup fault)
        | none => .ok projects := by
  rw [projectsOfXml, String.toList_ofList, ← projectsOfEvents_ofText, ← fault_ofText]
  rfl

theorem filterMap_toList {α β : Type} (o : Option α) (g : α → Option β) :
    o.toList.filterMap g = (o.bind g).toList := by
  cases o with
  | none => rfl
  | some a => cases h : g a <;> simp [h]

/-- The elements of a forest list the projects at its paths, before those that are
listed behind it. -/
theorem projectsOfEvents_forest (f : Forest) {rest : List Event} {projects : List ProjectReference}
    (h : projectsOfEvents dir rest = .ok projects) :
    projectsOfEvents dir (f.events ++ rest) =
      .ok (f.projectPaths.filterMap (projectAt? dir) ++ projects) := by
  induction f generalizing rest projects with
  | nil => exact h
  | text _ next ih | cdata _ next ih | aside _ next ih => exact ih h
  | empty tag next ih =>
    rw [Forest.events, List.cons_append, projectsOfEvents, projectElement?_tag]
    change (projectsOfEvents dir (next.events ++ rest) >>= _) = _
    rw [ih h, projectPaths_empty, List.filterMap_append, filterMap_toList, List.append_assoc]
    rfl
  | element tag content gap next ihContent ihNext =>
    have hclosed : projectsOfEvents dir (.closed tag.name.chars :: (next.events ++ rest)) =
        .ok (next.projectPaths.filterMap (projectAt? dir) ++ projects) := ihNext h
    rw [Forest.events, List.cons_append, List.cons_append, List.append_assoc, List.cons_append,
      projectsOfEvents, projectElement?_tag]
    change (projectsOfEvents dir (content.events ++ _) >>= _) = _
    rw [ihContent hclosed, projectPaths_element, List.filterMap_append, List.filterMap_append,
      filterMap_toList, List.append_assoc, List.append_assoc]
    rfl

/-- A solution of XML is read as the C# projects at its paths. -/
theorem projectsOfXml_source (dir : Path) (f : Forest) :
    projectsOfXml dir (.ofList f.source) = .ok (f.projectPaths.filterMap (projectAt? dir)) := by
  have hevents : projectsOfEvents dir (Document.ofText f.source).events =
      .ok (f.projectPaths.filterMap (projectAt? dir)) := by
    rw [projectsOfEvents_ofText, Forest.readFrom_source_nil, projectsOfEvents_precede,
      projectsOfEvents_forest f rfl, List.append_nil]
  rw [projectsOfXml]
  simp only [String.toList_ofList, hevents, f.fault_ofText_source]
  rfl

/-- The projects at listed paths are those of the C# paths among them. -/
theorem filterMap_projectAt? (dir : Path) (paths : List ListedPath) :
    (paths.map ListedPath.chars).filterMap (projectAt? dir) = csharpProjects dir paths := by
  have hat : ∀ p : ListedPath, projectAt? dir p.chars =
      if p.IsCSharp then some (p.reference dir) else none := fun p => by
    rw [projectAt?, isProjectPath_eq, projectPath_eq]
    simp only [decide_eq_true_eq]
    rfl
  induction paths with
  | nil => rfl
  | cons p paths ih =>
    rw [List.map_cons, List.filterMap_cons, hat, ih]
    by_cases hp : p.IsCSharp <;> simp [csharpProjects, hp]

end Reading

/-! ## agreement -/

/-- A solution of lines and one of XML that list the same paths are read as the same
projects, which are the C# projects among them, unless a line tells a stem with a
double quote. -/
theorem projectsOfText_agrees_projectsOfXml {dir : Path} {e : LineEnd} {ls : List SolutionLine}
    {f : Forest} (hpaths : f.projectPaths = (pathsOfLines ls).map ListedPath.chars)
    (hstems : ∀ p ∈ pathsOfLines ls, '"' ∉ (p.stem dir).toList) :
    projectsOfText dir (.ofList (solutionText dir e ls)) = csharpProjects dir (pathsOfLines ls) ∧
      projectsOfXml dir (.ofList f.source) = .ok (csharpProjects dir (pathsOfLines ls)) := by
  refine ⟨projectsOfText_solutionText hstems, ?_⟩
  rw [projectsOfXml_source, hpaths, filterMap_projectAt?]

/-- The kind of projects that are written in C#. -/
def csharpKind : Guid := ⟨"FAE04EC0-301F-11D3-BF4B-00C04F79EFBC".toList, List.all_eq_true.1 rfl⟩

def exampleId : Guid := ⟨"11111111-1111-1111-1111-111111111111".toList, List.all_eq_true.1 rfl⟩

/-- A header, a C# project in a directory with an ampersand, and another project. -/
def mixedLines : List SolutionLine := [
  .other "Microsoft Visual Studio Solution File, Format Version 12.00".toList (by decide),
  .project csharpKind ⟨"src\\R&D\\App.csproj".toList, by decide, by decide⟩ exampleId,
  .other "EndProject".toList (by decide),
  .project csharpKind ⟨"Tool.fsproj".toList, by decide, by decide⟩ exampleId]

/-- The same projects, the first one in two folders. -/
def mixedForest : Forest :=
  let folder : WrittenTag := ⟨.ofList "Folder".toList rfl, [], .none⟩
  .element ⟨.ofList "Solution".toList rfl, [], .none⟩
    (.element folder
      (.element folder (.empty (projectTag "src\\R&D\\App.csproj".toList) .nil) .none .nil) .none
      (.empty (projectTag "Tool.fsproj".toList) .nil))
    .none .nil

theorem projectsOfText_agrees_projectsOfXml_mixed :
    mixedForest.projectPaths = (pathsOfLines mixedLines).map ListedPath.chars ∧
      (∀ p ∈ pathsOfLines mixedLines, '"' ∉ (p.stem ⟨"/repo"⟩).toList) ∧
      projectsOfText ⟨"/repo"⟩ (.ofList (solutionText ⟨"/repo"⟩ .carriageReturn mixedLines)) =
        [⟨"App", ⟨"/repo/src/R&D/App.csproj"⟩⟩] ∧
      projectsOfXml ⟨"/repo"⟩ (.ofList mixedForest.source) =
        .ok [⟨"App", ⟨"/repo/src/R&D/App.csproj"⟩⟩] := by
  have hpaths : mixedForest.projectPaths = (pathsOfLines mixedLines).map ListedPath.chars := by
    decide +kernel
  have hstems : ∀ p ∈ pathsOfLines mixedLines, '"' ∉ (p.stem ⟨"/repo"⟩).toList := by
    decide +kernel
  have hprojects : csharpProjects ⟨"/repo"⟩ (pathsOfLines mixedLines) =
      [⟨"App", ⟨"/repo/src/R&D/App.csproj"⟩⟩] := by decide +kernel
  have h := projectsOfText_agrees_projectsOfXml (e := .carriageReturn) hpaths hstems
  rw [hprojects] at h
  exact ⟨hpaths, hstems, h⟩

/-! ## a directory with double quotes in its name -/

/-- A directory whose stem goes on like the line of a project behind a name. -/
def quotedDirectory : Path := ⟨"/x\", \"b.csproj\", \"\x7b\x7d\".y"⟩

/-- A line that lists the directory of the solution itself. -/
def directoryLine : SolutionLine :=
  .project csharpKind ⟨".".toList, by decide, by decide⟩ exampleId

/-- The stem of the directory is read as the name and the path of a C# project, of
which a solution of XML that lists the same path says nothing. -/
theorem projectsOfText_quotedDirectory :
    (Forest.empty (projectTag ".".toList) .nil).projectPaths =
        (pathsOfLines [directoryLine]).map ListedPath.chars ∧
      projectsOfText quotedDirectory
          (.ofList (solutionText quotedDirectory .lineFeed [directoryLine])) =
        [⟨"x", ⟨"/x\", \"b.csproj\", \"\x7b\x7d\".y/b.csproj"⟩⟩] ∧
      projectsOfXml quotedDirectory "<Project Path=\".\"/>" = .ok [] := by
  have hpaths : (Forest.empty (projectTag ".".toList) .nil).projectPaths = [".".toList] := by
    rw [projectPaths_empty, projectPath?_projectTag]
    rfl
  have hsource : "<Project Path=\".\"/>" =
      String.ofList (Forest.empty (projectTag ".".toList) .nil).source := by
    rw [source_project]
    rfl
  refine ⟨hpaths, ?_, ?_⟩
  · rw [projectsOfText, String.toList_ofList]
    decide +kernel
  · rw [hsource, projectsOfXml_source, hpaths]
    decide +kernel

end ResourceAudit
