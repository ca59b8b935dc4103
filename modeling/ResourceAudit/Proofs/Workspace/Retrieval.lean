import ResourceAudit.Proofs.FileTree.WellFormed
import ResourceAudit.Proofs.Workspace.Reading

/-!
# ResourceAudit.Proofs.Workspace.Retrieval

What compiling a solution gives.  It gives everything or nothing
(`Workspace.compile_all_or_nothing`): a compilation for each target of each
project, in order, if every project has been evaluated and every source can be
read; and otherwise the failure of the first project that has one, whatever
comes behind it.  `ProjectState.IsReadable`, `IsCompilationOf` and `FailsWith`
say what this is for one project, without reference to the files that have been
read before.
-/

namespace ResourceAudit

section Projects

variable (w : Workspace) (t : FileTree)

/-- The paths of the sources of a project for a target. -/
def Workspace.sourcePaths (project : Project) (target : Option String) : List Path :=
  (project.sources t target w.ignores w.verbose).files

/-- Being text that can be read. -/
def FileTree.IsReadable (path : Path) : Prop := ∃ text, t.read path = .ok text

/-- Being a project that has been evaluated and whose sources can be read, for
every target. -/
def ProjectState.IsReadable : ProjectState → Prop
  | .loaded project =>
    ∀ target ∈ project.targets, ∀ path ∈ w.sourcePaths t project target, t.IsReadable path
  | .failed .. => False

/-- What is compiled of a project: each target. -/
def ProjectState.builds : ProjectState → List (Project × Option String)
  | .loaded project => project.targets.map fun target => (project, target)
  | .failed .. => []

/-- Being the outline of the file at a path. -/
def IsSourceAt (path : Path) (file : SourceFile) : Prop :=
  file.path.same path = true ∧ ∃ text, t.read path = .ok text ∧
    file.declarations = (CSharp.Outline.ofText text.toList).declarations ∧
    file.faulty = (CSharp.Outline.ofText text.toList).hasFaults

/-- Being what a project is compiled to for a target: with its name, the target
and one file for each source. -/
structure IsCompilationOf (build : Project × Option String) (c : Compilation) : Prop where
  project_eq : c.project = build.1.name
  target_eq : c.target = build.2
  files : List.Forall₂ (IsSourceAt t) (w.sourcePaths t build.1 build.2) c.files

/-- Why a project cannot be compiled: it could not be evaluated, or its first
source that cannot be read, in the order of the targets and of their sources. -/
inductive FailsWith : ProjectState → LoadFault → Prop
  | failed (reference : ProjectReference) (fault : ProjectFault) :
    FailsWith (.failed reference fault) (.failedProject reference.path fault)
  | source {project : Project} {target : Option String} {before after : List (Option String)}
    (htargets : project.targets = before ++ target :: after)
    (hbefore : ∀ earlier ∈ before, ∀ path ∈ w.sourcePaths t project earlier, t.IsReadable path)
    {path : Path} {front rest : List Path}
    (hpaths : w.sourcePaths t project target = front ++ path :: rest)
    (hfront : ∀ earlier ∈ front, t.IsReadable earlier)
    {fault : FileFault} (hpath : t.read path = .error fault) :
    FailsWith (.loaded project) (.source path fault)

end Projects

/-! ## one project -/

section Project

variable {w : Workspace} {t : FileTree}

theorem exists_readSource_iff {path : Path} :
    (∃ file, readSource t path = .ok file) ↔ t.IsReadable path := by
  simp only [readSource_eq_ok, FileTree.IsReadable]
  constructor
  · rintro ⟨file, text, htext, -⟩
    exact ⟨text, htext⟩
  · rintro ⟨text, htext⟩
    exact ⟨_, text, htext, rfl⟩

theorem readSource_eq_error {path : Path} {fault : LoadFault} :
    readSource t path = .error fault ↔ ∃ cause, t.read path = .error cause ∧
      fault = .source path cause := by
  cases hread : t.read path with
  | error cause =>
    have hsource : readSource t path = .error (.source path cause) := by
      rw [readSource, hread]
      rfl
    simp [hsource, eq_comm]
  | ok text =>
    obtain ⟨file, hfile⟩ := exists_readSource_iff.2 ⟨text, hread⟩
    simp [hfile]

theorem isSourceAt_of_readSource {path : Path} {file : SourceFile}
    (h : readSource t path = .ok file) : IsSourceAt t path file := by
  obtain ⟨text, htext, rfl⟩ := readSource_eq_ok.1 h
  exact ⟨beq_self_eq_true _, text, htext, rfl, rfl⟩

/-- The file of a source is one under any spelling of its path. -/
theorem IsSourceAt.of_sameAs {path : Path} {file other : SourceFile} (h : IsSourceAt t path other)
    (hsame : file.SameAs other) : IsSourceAt t path file := by
  obtain ⟨hpath, text, htext, hdeclarations, hfaulty⟩ := h
  refine ⟨?_, text, htext, hsame.declarations.trans hdeclarations, hsame.faulty.trans hfaulty⟩
  have hsamePath := hsame.path
  rw [Path.same, beq_iff_eq] at hpath hsamePath ⊢
  rw [hsamePath, hpath]

theorem IsCompilationOf.of_sameAs {build : Project × Option String} {c d : Compilation}
    (h : IsCompilationOf w t build d) (hsame : c.SameAs d) : IsCompilationOf w t build c where
  project_eq := hsame.project.trans h.project_eq
  target_eq := hsame.target.trans h.target_eq
  files := forall₂_trans (fun _ _ _ hsource hfile => hsource.of_sameAs hfile) h.files
    (List.Forall₂.flip hsame.files)

theorem isCompilationOf_of_compileApart {project : Project} {target : Option String}
    {c : Compilation} (h : w.compileApart t project target = .ok c) :
    IsCompilationOf w t (project, target) c := by
  rw [Workspace.compileApart] at h
  cases hfiles : (project.sources t target w.ignores w.verbose).files.mapM (readSource t) with
  | error fault => simp [hfiles, Except.map] at h
  | ok files =>
    have hc : ⟨project.name, target, files⟩ = c := by simpa [hfiles, Except.map] using h
    rw [← hc]
    exact ⟨rfl, rfl, (mapM_eq_ok_iff.1 hfiles).imp fun _ _ => isSourceAt_of_readSource⟩

/-- A target fails for its first source that cannot be read. -/
theorem exists_of_compileApart_eq_error {project : Project} {target : Option String}
    {fault : LoadFault} : w.compileApart t project target = .error fault ↔
      ∃ front path rest cause, w.sourcePaths t project target = front ++ path :: rest ∧
        (∀ earlier ∈ front, t.IsReadable earlier) ∧ t.read path = .error cause ∧
        fault = .source path cause := by
  have hread : w.compileApart t project target = .error fault ↔
      (w.sourcePaths t project target).mapM (readSource t) = .error fault := by
    rw [Workspace.compileApart, Workspace.sourcePaths]
    cases (project.sources t target w.ignores w.verbose).files.mapM (readSource t) <;>
      simp [Except.map]
  simp only [hread, mapM_eq_error_iff, readSource_eq_error, exists_readSource_iff]
  constructor
  · rintro ⟨front, path, rest, hpaths, hfront, cause, hpath, hfault⟩
    exact ⟨front, path, rest, cause, hpaths, hfront, hpath, hfault⟩
  · rintro ⟨front, path, rest, cause, hpaths, hfront, hpath, hfault⟩
    exact ⟨front, path, rest, hpaths, hfront, cause, hpath, hfault⟩

/-- A project is compiled if it has been evaluated and its sources can be read. -/
theorem exists_compileStateApart {state : ProjectState} :
    (∃ cs, w.compileStateApart t state = .ok cs) ↔ state.IsReadable w t := by
  cases state with
  | failed reference fault => simp [Workspace.compileStateApart, ProjectState.IsReadable]
  | loaded project =>
    simp only [Workspace.compileStateApart, exists_mapM_ok_iff, w.exists_compileApart_iff,
      ProjectState.IsReadable, Workspace.sourcePaths, FileTree.IsReadable]

theorem isCompilationOf_of_compileStateApart {state : ProjectState} {cs : List Compilation}
    (h : w.compileStateApart t state = .ok cs) :
    List.Forall₂ (IsCompilationOf w t) state.builds cs := by
  cases state with
  | failed reference fault => cases h
  | loaded project =>
    rw [ProjectState.builds, List.forall₂_map_left_iff]
    exact (mapM_eq_ok_iff.1 h).imp fun _ _ => isCompilationOf_of_compileApart

theorem compileStateApart_eq_error_iff {state : ProjectState} {fault : LoadFault} :
    w.compileStateApart t state = .error fault ↔ FailsWith w t state fault := by
  cases state with
  | failed reference cause =>
    constructor
    · intro h
      cases h
      exact .failed reference cause
    · rintro ⟨⟩
      rfl
  | loaded project =>
    have hreadable : ∀ target, (∃ c, w.compileApart t project target = .ok c) ↔
        ∀ path ∈ w.sourcePaths t project target, t.IsReadable path := fun target =>
      w.exists_compileApart_iff
    simp only [Workspace.compileStateApart, mapM_eq_error_iff, hreadable,
      exists_of_compileApart_eq_error]
    constructor
    · rintro ⟨before, target, after, htargets, hbefore, front, path, rest, cause, hpaths, hfront,
        hpath, rfl⟩
      exact .source htargets hbefore hpaths hfront hpath
    · rintro (_ | ⟨htargets, hbefore, hpaths, hfront, hpath⟩)
      exact ⟨_, _, _, htargets, hbefore, _, _, _, _, hpaths, hfront, hpath, rfl⟩

end Project

/-! ## all projects -/

section Projects

variable {w : Workspace} {t : FileTree}

theorem isCompilationOf_of_compileAllApart {states : List ProjectState} {cs : List Compilation}
    (h : w.compileAllApart t states = .ok cs) :
    List.Forall₂ (IsCompilationOf w t) (states.flatMap ProjectState.builds) cs := by
  rw [Workspace.compileAllApart] at h
  cases hparts : states.mapM (w.compileStateApart t) with
  | error fault => simp [hparts, Except.map] at h
  | ok parts =>
    have hcs : parts.flatten = cs := by simpa [hparts, Except.map] using h
    rw [← hcs, List.flatMap_def]
    refine List.rel_flatten (List.forall₂_map_left_iff.2 ?_)
    exact (mapM_eq_ok_iff.1 hparts).imp fun _ _ => isCompilationOf_of_compileStateApart

theorem compileAllApart_eq_error_iff {states : List ProjectState} {fault : LoadFault} :
    w.compileAllApart t states = .error fault ↔ ∃ before state after,
      states = before ++ state :: after ∧ (∀ earlier ∈ before, earlier.IsReadable w t) ∧
        FailsWith w t state fault := by
  have hparts : w.compileAllApart t states = .error fault ↔
      states.mapM (w.compileStateApart t) = .error fault := by
    rw [Workspace.compileAllApart]
    cases states.mapM (w.compileStateApart t) <;> simp [Except.map]
  simp only [hparts, mapM_eq_error_iff, exists_compileStateApart, compileStateApart_eq_error_iff]

/-- Compiling a solution gives all or nothing.  There is a result if every
project has been evaluated and all its sources can be read; it is then, in order,
one compilation for each target of each project, with one file for each source.
Otherwise there is the failure of the first project that has one, and what comes
behind that project does not matter. -/
theorem Workspace.compile_all_or_nothing (ht : t.WellFormed) (w : Workspace) (s : LoadedSolution) :
    ((∃ cs, (w.compile t s).result = .ok cs) ↔ ∀ state ∈ s.projects, state.IsReadable w t) ∧
    (∀ cs, (w.compile t s).result = .ok cs →
      List.Forall₂ (IsCompilationOf w t) (s.projects.flatMap ProjectState.builds) cs) ∧
    (∀ fault, (w.compile t s).result = .error fault ↔ ∃ before state after,
      s.projects = before ++ state :: after ∧ (∀ earlier ∈ before, earlier.IsReadable w t) ∧
        FailsWith w t state fault) := by
  have hreadable : (∃ ds, w.compileAllApart t s.projects = .ok ds) ↔
      ∀ state ∈ s.projects, state.IsReadable w t := by
    rw [compileAllApart, exists_map_ok_iff, exists_mapM_ok_iff]
    simp only [exists_compileStateApart]
  simp only [← hreadable, ← compileAllApart_eq_error_iff]
  obtain ⟨cs, ds, hcs, hds, hsame⟩ | ⟨fault, hcs, hds⟩ :=
    (w.compileProjects_matches ht s.projects).ok_or_error
  · simp only [compile, hcs, hds, Except.ok.injEq, exists_eq', reduceCtorEq, implies_true, and_true,
      forall_eq', true_and]
    exact forall₂_trans (fun _ _ _ hbuild hc => hbuild.of_sameAs hc)
      (isCompilationOf_of_compileAllApart hds) (List.Forall₂.flip hsame)
  · simp [compile, hcs, hds]

end Projects

/-- A project with an empty source, and one with a source that is no text. -/
def garbledTree : FileTree :=
  ⟨.dir [("App", .dir [("Kept.cs", .file ⟨#[]⟩)]), ("Lib", .dir [("Bad.cs", .file ⟨#[0xff]⟩)])],
    []⟩

/-- A project with the default sources of its directory. -/
def plainProject (name : String) (path : Path) : Project := ⟨name, path, true, ⟨[]⟩, []⟩

/-- The projects of this tree, and one that is not there. -/
def garbledSolution : LoadedSolution :=
  ⟨⟨⟨"/App.sln"⟩, []⟩, [.loaded (plainProject "App" ⟨"/App/App.csproj"⟩),
    .loaded (plainProject "Lib" ⟨"/Lib/Lib.csproj"⟩),
    .failed ⟨"Gone", ⟨"/Gone/Gone.csproj"⟩⟩ (.unreadable .notFound)]⟩

def plainWorkspace : Workspace := ⟨⟨"/sdk"⟩, .empty, false⟩

theorem compile_garbledSolution :
    garbledTree.WellFormed ∧ (plainWorkspace.compile garbledTree garbledSolution).result =
      .error (.source ⟨"/Lib/Bad.cs"⟩ .notText) := by
  have htree : garbledTree.WellFormed := by decide
  have happ : plainWorkspace.sourcePaths garbledTree (plainProject "App" ⟨"/App/App.csproj"⟩) none =
      [⟨"/App/Kept.cs"⟩] := by cbv
  have hlib : plainWorkspace.sourcePaths garbledTree (plainProject "Lib" ⟨"/Lib/Lib.csproj"⟩) none =
      [] ++ ⟨"/Lib/Bad.cs"⟩ :: [] := by cbv
  have hkept : garbledTree.read ⟨"/App/Kept.cs"⟩ = .ok "" := by cbv
  have hfound : garbledTree.resolve true ⟨"/Lib/Bad.cs"⟩ =
      .ok (["Lib", "Bad.cs"], .file ⟨#[0xff]⟩) := by cbv
  have hbytes : String.fromUTF8? ⟨#[0xff]⟩ = none := by decide +kernel
  have hgarbled : garbledTree.read ⟨"/Lib/Bad.cs"⟩ = .error .notText := by
    rw [FileTree.read, hfound]
    simp only [hbytes, Option.elim_none]
  have htargets : ∀ name path, (plainProject name path).targets = [] ++ none :: [] := by
    intro name path
    rfl
  obtain ⟨-, -, hfault⟩ := Workspace.compile_all_or_nothing htree plainWorkspace garbledSolution
  refine ⟨htree, (hfault _).2 ⟨[_], _, [_], rfl, ?_, ?_⟩⟩
  · rw [List.forall_mem_singleton, ProjectState.IsReadable, htargets, List.nil_append,
      List.forall_mem_singleton, happ, List.forall_mem_singleton]
    exact ⟨"", hkept⟩
  · exact .source (htargets _ _) (List.forall_mem_nil _) hlib (List.forall_mem_nil _) hgarbled

end ResourceAudit
