import ResourceAudit.Compilation
import ResourceAudit.Project.Evaluation
import ResourceAudit.Project.Sources
import ResourceAudit.Report
import ResourceAudit.Solution
import ResourceAudit.Symbol.Declaration

/-!
# ResourceAudit.Workspace

Loading a solution and compiling its projects.  A project that cannot be
evaluated is remembered and does not keep the solution from being loaded;
compiling is all or nothing, and the first thing that cannot be compiled, in the
order of projects, targets and files, is why it fails.
-/

namespace ResourceAudit

/-! ## faults -/

/-- Why a solution cannot be examined. -/
inductive LoadFault where
  | toolchain (fault : ToolchainFault)
  | solution (path : Path) (fault : SolutionFault)
  | project (path : Path) (fault : ProjectFault)
  /-- A project is compiled that could not be evaluated. -/
  | failedProject (path : Path) (fault : ProjectFault)
  | source (path : Path) (fault : FileFault)
  deriving DecidableEq, Repr

def projectMessage (path : Path) (reason : String) : String :=
  s!"Failed to load project '{path.text}': {reason}"

/-- What went wrong; for a source file, without the reason. -/
def LoadFault.message : LoadFault → String
  | .toolchain fault => "No MSBuild instance found: " ++ fault.reason
  | .solution path fault => s!"Failed to load solution '{path.text}': {fault.message}"
  | .project path fault => projectMessage path fault.message
  | .failedProject path fault => projectMessage path (projectMessage path fault.message)
  | .source path _ => s!"Failed to read source file '{path.text}'"

/-- What went wrong, with the reason. -/
def LoadFault.fullMessage : LoadFault → String
  | .source path fault => (LoadFault.source path fault).message ++ ": " ++ fault.message
  | fault => fault.message

/-! ## loading -/

/-- A project of a loaded solution. -/
inductive ProjectState where
  | loaded (project : Project)
  | failed (reference : ProjectReference) (fault : ProjectFault)
  deriving DecidableEq, Repr

structure LoadedSolution where
  solution : Solution
  /-- The state of each project, in the order of the solution. -/
  projects : List ProjectState
  deriving DecidableEq, Repr

/-- What is said while projects are loaded and compiled. -/
inductive Notice where
  | progress (progress : Progress)
  | warning (warning : Warning)
  deriving DecidableEq, Repr

/-- How solutions are loaded. -/
structure Workspace where
  toolchain : Path
  ignores : IgnoreSet
  verbose : Bool

/-- Evaluates a project. -/
def Workspace.evaluate (w : Workspace) (t : FileTree) (r : ProjectReference) : ProjectState :=
  match Project.load t r w.toolchain with
  | .ok project => .loaded project
  | .error fault => .failed r fault

/-- The project that could not be evaluated, if a state is that of one. -/
def ProjectState.failure? : ProjectState → Option (ProjectReference × ProjectFault)
  | .loaded _ => none
  | .failed reference fault => some (reference, fault)

/-- The projects that could not be evaluated. -/
def LoadedSolution.failures (s : LoadedSolution) : List (ProjectReference × ProjectFault) :=
  s.projects.filterMap ProjectState.failure?

/-- What is said once a solution has been loaded: the projects that have been
evaluated and then the warnings about the others. -/
def Workspace.loadNotices (w : Workspace) (s : LoadedSolution) : List Notice :=
  let evaluated := s.projects.filterMap fun
    | .loaded project => some (.progress ⟨.evaluate, project.path, none⟩)
    | .failed .. => none
  let warnings := s.failures.map fun (r, fault) =>
    .warning (.failedProject r.path (LoadFault.project r.path fault).message)
  evaluated ++ if w.verbose then warnings else []

/-- Loads a solution and evaluates its projects. -/
def Workspace.load (w : Workspace) (t : FileTree) (path : Path) :
    Except LoadFault LoadedSolution := do
  let solution ← (Solution.load t path).mapError (.solution path)
  return ⟨solution, solution.projects.map (w.evaluate t)⟩

/-! ## compiling -/

/-- What has been said up to a result or a fault. -/
structure Told (α : Type) where
  notices : List Notice
  result : Except LoadFault α

/-- Reads a source file. -/
def readSource (t : FileTree) (path : Path) : Except LoadFault SourceFile := do
  let text ← (t.read path).mapError (.source path)
  let outline := CSharp.Outline.ofText text.toList
  return ⟨path, outline.declarations, outline.hasFaults⟩

/-- The source files that have been read, newest first. -/
abbrev ReadFiles := List SourceFile

/-- The source files at the given paths.  A path that has been read before is
not read again. -/
def Workspace.readFiles (w : Workspace) (t : FileTree) (before : ReadFiles) :
    List Path → Told (List SourceFile × ReadFiles)
  | [] => ⟨[], .ok ([], before)⟩
  | path :: rest =>
    match before.find? (·.path.same path) with
    | some file =>
      let others := w.readFiles t before rest
      ⟨others.notices, others.result.map fun (files, after) => (file :: files, after)⟩
    | none =>
      match readSource t path with
      | .error fault => ⟨[], .error fault⟩
      | .ok file =>
        let warnings := if file.faulty && w.verbose then [.warning (.faultySource path)] else []
        let others := w.readFiles t (file :: before) rest
        ⟨warnings ++ others.notices,
          others.result.map fun (files, after) => (file :: files, after)⟩

/-- Compiles a project for the given targets. -/
def Workspace.compileTargets (w : Workspace) (t : FileTree) (project : Project)
    (before : ReadFiles) : List (Option String) → Told (List Compilation)
  | [] => ⟨[], .ok []⟩
  | target :: rest =>
    let sources := project.sources t target w.ignores w.verbose
    let warnings := sources.warnings.map Notice.warning
    let read := w.readFiles t before sources.files
    match read.result with
    | .error fault => ⟨warnings ++ read.notices, .error fault⟩
    | .ok (files, after) =>
      let built : Notice := .progress ⟨.build, project.path, target⟩
      let others := w.compileTargets t project after rest
      ⟨warnings ++ read.notices ++ built :: others.notices,
        others.result.map (⟨project.name, target, files⟩ :: ·)⟩

/-- Compiles a project for all its targets. -/
def Workspace.compileProject (w : Workspace) (t : FileTree) (project : Project) :
    Told (List Compilation) :=
  w.compileTargets t project [] project.targets

/-- Compiles projects, in order. -/
def Workspace.compileProjects (w : Workspace) (t : FileTree) :
    List ProjectState → Told (List Compilation)
  | [] => ⟨[], .ok []⟩
  | .failed reference fault :: _ => ⟨[], .error (.failedProject reference.path fault)⟩
  | .loaded project :: rest =>
    let first := w.compileProject t project
    match first.result with
    | .error fault => ⟨first.notices, .error fault⟩
    | .ok compilations =>
      let others := w.compileProjects t rest
      ⟨first.notices ++ others.notices, others.result.map (compilations ++ ·)⟩

/-- Compiles all projects of a solution. -/
def Workspace.compile (w : Workspace) (t : FileTree) (s : LoadedSolution) :
    Told (List Compilation) :=
  w.compileProjects t s.projects

end ResourceAudit
