import ResourceAudit.Arguments
import ResourceAudit.Config.Search
import ResourceAudit.Workspace

/-!
# ResourceAudit.Run

A whole run, as a function of the file tree, the environment and the arguments:
the configuration is loaded, a toolchain chosen, the solution loaded and
compiled, and the values are reported that several resources share.
-/

namespace ResourceAudit

/-- What a run prints and how it ends. -/
structure Outcome where
  status : Status
  stdout : String
  stderr : String
  deriving DecidableEq, Repr

/-- Puts texts in front of what is printed. -/
def Outcome.after (o : Outcome) (stdout stderr : String) : Outcome :=
  ⟨o.status, stdout ++ o.stdout, stderr ++ o.stderr⟩

/-- The end of a run that cannot go on. -/
def Outcome.fatal (message : String) : Outcome := ⟨.error, "", s!"Error: {message}\n"⟩

def noteLine (text : String) : String := s!"{noteMark false} {text}\n"

def usingLine (toolchain : Path) : String :=
  s!"Using MSBuild at '{toolchain.text}' to load projects.\n"

def loadingLine (solution : Path) : String := s!"Loading solution '{solution.text}'\n"

def finishedLine (solution : Path) : String := s!"Finished loading solution '{solution.text}'\n"

def unavailableLine : String := "Unable to get compilations\n"

/-- The line for a notice.  Progress is shown where a run is verbose. -/
def Notice.line (verbose : Bool) : Notice → String
  | .progress p => if verbose then p.line none ++ "\n" else ""
  | .warning w => w.line ++ "\n"

def noticeLines (verbose : Bool) (notices : List Notice) : String :=
  String.join (notices.map (Notice.line verbose))

/-! ## directories -/

/-- The directory around a path, which is the working directory for a mere
name. -/
def dirAround (p : Path) : Path :=
  match p.parent with
  | some parent => if parent.text.isEmpty then ⟨"."⟩ else parent
  | none => ⟨"."⟩

/-- The directory whose configuration holds for a run. -/
def configDir (t : FileTree) (a : Arguments) : Path :=
  let dir := a.solution.elim t.herePath dirAround
  (t.canonical? dir).getD dir

/-- The toolchain path that is given: that of the command line, or that of the
configuration, which is relative to its file. -/
def explicitToolchain (a : Arguments) (loaded : LoadedConfig) : Option Path :=
  a.msbuildPath.or <| loaded.config.msbuildPath.map fun configured =>
    (loaded.path.elim ⟨""⟩ dirAround).join configured

/-! ## runs -/

/-- The report on compiled projects. -/
def reportRun (verbose : Bool) (compilations : List Compilation) : Outcome :=
  let table := buildTable (compilations.map (·.unit))
  let groups := table.duplicates
  ⟨Status.ofGroups groups.length, reportGroups groups,
    if verbose then summary groups table.size false else ""⟩

/-- Compiles and reports a solution that has been loaded. -/
def compileRun (t : FileTree) (w : Workspace) (solution : Path)
    (loaded : LoadedSolution) : Outcome :=
  let told := w.compile t loaded
  let rest : Outcome :=
    match told.result with
    | .ok [] =>
      let note := noteLine s!"'{solution.text}' contains no C# projects"
      ⟨.error, unavailableLine, if w.verbose then note else ""⟩
    | .ok compilations => reportRun w.verbose compilations
    | .error fault =>
      ⟨.error, unavailableLine, if w.verbose then s!"warning: {fault.fullMessage}\n" else ""⟩
  rest.after "" (noticeLines w.verbose told.notices)

/-- Examines a solution with a toolchain. -/
def solutionRun (t : FileTree) (config : Config) (verbose : Bool) (toolchain : Toolchain)
    (solution : Path) : Outcome :=
  let full := solution.absolute t.herePath
  let base := dirAround full
  let w : Workspace := ⟨toolchain.path, .ofEntries base config.ignores, verbose⟩
  let invalid := (invalidEntries config.ignores).map fun (entry, fault) =>
    (Warning.invalidIgnore entry fault).line ++ "\n"
  let rest : Outcome :=
    match w.load t full with
    | .error fault => .fatal fault.fullMessage
    | .ok loaded =>
      (compileRun t w solution loaded).after (finishedLine solution)
        (noticeLines verbose (w.loadNotices loaded))
  rest.after (usingLine toolchain.path ++ loadingLine solution)
    (if verbose then String.join invalid else "")

/-- Does what a configured run is asked to do. -/
def configuredRun (t : FileTree) (env : Environment) (a : Arguments) (loaded : LoadedConfig) :
    Outcome :=
  let source := { ToolchainSource.ofEnvironment t env with
    explicit := explicitToolchain a loaded }
  if a.listToolchains then
    let toolchains := source.toolchains t
    ⟨if toolchains.isEmpty then .failure else .success, reportToolchains toolchains, ""⟩
  else match a.solution with
    | none => .fatal "A solution file is required unless --list-toolchains is given"
    | some solution =>
      match source.locate t a.sdkVersion with
      | .error fault => .fatal (LoadFault.toolchain fault).fullMessage
      | .ok toolchain => solutionRun t loaded.config a.verbose toolchain solution

/-- A run with the given arguments. -/
def run (t : FileTree) (env : Environment) (a : Arguments) : Outcome :=
  match loadConfig t (configDir t a) with
  | .error fault => .fatal fault.message
  | .ok loaded =>
    let note := loaded.path.elim "" fun path => noteLine s!"Using config file '{path.text}'"
    (configuredRun t env a loaded).after "" (if a.verbose then note else "")

end ResourceAudit
