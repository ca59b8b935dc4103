import ResourceAudit.Proofs.FileTree.Spelling
import ResourceAudit.Proofs.Project.Sources
import ResourceAudit.Proofs.Results
import ResourceAudit.Workspace

/-!
# ResourceAudit.Proofs.Workspace.Reading

Compiling with and without files that have been read before.  A project is
compiled target by target, and a file that several targets share is read once;
the second definition, `Workspace.compileApart`, reads every file for every
target.  Both give the same compilations, up to the spelling of paths, and fail
with the same fault (`compileProjects_matches`): a file that has been read is
what reading it again would give (`IsFresh`), since a source is found under
spellings only that lead to the same place (`Project.isSolid_of_mem_sources`).
-/

namespace ResourceAudit

/-! ## sources -/

theorem isSolid_of_mem_includedFiles {t : FileTree} {dir : Path} {spec : String} {f : Path}
    (hf : f ∈ (includedFiles t dir spec).1) : f.IsSolid := by
  rw [includedFiles] at hf
  split at hf
  · split at hf
    · simp only [List.mem_map, List.mem_filter, Bool.and_eq_true] at hf
      obtain ⟨p, ⟨-, -, hsource⟩, rfl⟩ := hf
      cases hname : p.fileName with
      | none => simp [Path.isSource, Path.extension, hname] at hsource
      | some name => exact Path.isSolid_normalize hname
    · cases hf
  · split at hf
    · next hfile => exact List.mem_singleton.1 hf ▸ t.isSolid_of_isFile hfile
    · cases hf

/-- Every source of a project is written up to its name. -/
theorem Project.isSolid_of_mem_sources {project : Project} {t : FileTree} (ht : t.WellFormed)
    {target : Option String} {ignores : IgnoreSet} {verbose : Bool} {f : Path}
    (hf : f ∈ (project.sources t target ignores verbose).files) : f.IsSolid := by
  rcases (mem_sources_origin target hf).2 with ⟨-, files, hfiles, hf⟩ | ⟨part, -, hf⟩ | hf
  · obtain ⟨found, hfound, rfl⟩ := t.exists_filesBelow_of_scanSources hfiles
    rw [mem_sortPaths, List.mem_filter] at hf
    exact ht.isSolid_of_mem_filesBelow _ hfound hf.1
  · exact isSolid_of_mem_includedFiles hf
  · obtain ⟨found, hfound, hf⟩ := t.exists_filesBelow_of_mem_scanGenerated hf
    exact ht.isSolid_of_mem_filesBelow _ hfound hf

/-! ## reading -/

/-- Being read from the same file, whatever the spelling of its path. -/
structure SourceFile.SameAs (f g : SourceFile) : Prop where
  path : f.path.same g.path = true
  declarations : f.declarations = g.declarations
  faulty : f.faulty = g.faulty

theorem readSource_eq_ok {t : FileTree} {path : Path} {file : SourceFile} :
    readSource t path = .ok file ↔ ∃ text, t.read path = .ok text ∧
      file = ⟨path, (CSharp.Outline.ofText text.toList).declarations,
        (CSharp.Outline.ofText text.toList).hasFaults⟩ := by
  cases hread : t.read path with
  | error fault =>
    have hsource : readSource t path = .error (.source path fault) := by
      rw [readSource, hread]
      rfl
    simp [hsource]
  | ok text =>
    have hsource : readSource t path = .ok ⟨path, (CSharp.Outline.ofText text.toList).declarations,
        (CSharp.Outline.ofText text.toList).hasFaults⟩ := by
      rw [readSource, hread]
      rfl
    simp [hsource, eq_comm]

/-- Being files that have been read as they would be read now. -/
def IsFresh (t : FileTree) (before : ReadFiles) : Prop :=
  ∀ file ∈ before, readSource t file.path = .ok file

theorem IsFresh.cons {t : FileTree} {before : ReadFiles} (h : IsFresh t before) {path : Path}
    {file : SourceFile} (hfile : readSource t path = .ok file) : IsFresh t (file :: before) := by
  obtain ⟨text, -, hpath⟩ := readSource_eq_ok.1 hfile
  have hsame : file.path = path := by rw [hpath]
  rw [IsFresh, List.forall_mem_cons]
  exact ⟨hsame ▸ hfile, h⟩

/-- A file that has been read under one spelling would be read under any other. -/
theorem exists_readSource_of_same {t : FileTree} {path : Path} (hpath : path.IsSolid)
    {file : SourceFile} (hfile : readSource t file.path = .ok file)
    (hsame : file.path.same path = true) :
    ∃ other, readSource t path = .ok other ∧ file.SameAs other := by
  obtain ⟨text, htext, heq⟩ := readSource_eq_ok.1 hfile
  have hread : t.read path = .ok text := by
    rw [← htext]
    exact (t.read_of_same (t.isSolid_of_read htext) hpath hsame).symm
  refine ⟨_, readSource_eq_ok.2 ⟨text, hread, rfl⟩, hsame, ?_, ?_⟩
  · rw [heq]
  · rw [heq]

namespace Workspace

variable (w : Workspace) {t : FileTree}

/-- Files that have been read before do not show in what is read. -/
theorem readFiles_matches {before : ReadFiles} (hbefore : IsFresh t before) {paths : List Path}
    (hpaths : ∀ path ∈ paths, path.IsSolid) :
    ResultsMatch (fun read files => List.Forall₂ SourceFile.SameAs read.1 files ∧ IsFresh t read.2)
      (w.readFiles t before paths).result (paths.mapM (readSource t)) := by
  induction paths generalizing before with
  | nil => exact .ok ⟨.nil, hbefore⟩
  | cons path rest ih =>
    rw [List.forall_mem_cons] at hpaths
    rw [readFiles]
    cases hfind : before.find? (·.path.same path) with
    | some file =>
      have hpath : file.path.same path = true := by
        simpa using List.find?_some hfind
      obtain ⟨other, hother, hsame⟩ := exists_readSource_of_same hpaths.1
        (hbefore file (List.mem_of_find?_eq_some hfind)) hpath
      rw [mapM_cons_ok hother]
      exact (ih hbefore hpaths.2).map fun _ _ h => ⟨.cons hsame h.1, h.2⟩
    | none =>
      cases hread : readSource t path with
      | error fault =>
        rw [mapM_cons_error hread]
        exact .error fault
      | ok file =>
        have hself : file.SameAs file := ⟨beq_self_eq_true _, rfl, rfl⟩
        rw [mapM_cons_ok hread]
        exact (ih (hbefore.cons hread) hpaths.2).map fun _ _ h => ⟨.cons hself h.1, h.2⟩

/-! ## compiling -/

/-- Compiles a project for one target, and reads every file for it. -/
def compileApart (t : FileTree) (project : Project) (target : Option String) :
    Except LoadFault Compilation :=
  ((project.sources t target w.ignores w.verbose).files.mapM (readSource t)).map
    fun files => ⟨project.name, target, files⟩

/-- Compiles a project for each of its targets. -/
def compileStateApart (t : FileTree) : ProjectState → Except LoadFault (List Compilation)
  | .loaded project => project.targets.mapM (w.compileApart t project)
  | .failed reference fault => .error (.failedProject reference.path fault)

/-- Compiles the projects of a solution, each target of each on its own. -/
def compileAllApart (t : FileTree) (states : List ProjectState) :
    Except LoadFault (List Compilation) :=
  (states.mapM (w.compileStateApart t)).map List.flatten

/-- A target is compiled if its sources can be read. -/
theorem exists_compileApart_iff {project : Project} {target : Option String} :
    (∃ c, w.compileApart t project target = .ok c) ↔
      ∀ f ∈ (project.sources t target w.ignores w.verbose).files, ∃ text, t.read f = .ok text := by
  rw [compileApart, exists_map_ok_iff, exists_mapM_ok_iff]
  simp only [readSource_eq_ok]
  constructor
  · intro h f hf
    obtain ⟨file, text, htext, _⟩ := h f hf
    exact ⟨text, htext⟩
  · intro h f hf
    obtain ⟨text, htext⟩ := h f hf
    exact ⟨_, text, htext, rfl⟩

end Workspace

/-- Being a compilation of the same files, whatever the spelling of their paths. -/
structure Compilation.SameAs (c d : Compilation) : Prop where
  project : c.project = d.project
  target : c.target = d.target
  files : List.Forall₂ SourceFile.SameAs c.files d.files

/-- The spelling of paths does not show in what is declared. -/
theorem Compilation.SameAs.symbolTable_eq {c d : Compilation} (h : c.SameAs d) :
    c.symbolTable = d.symbolTable := by
  rw [symbolTable, symbolTable, declarations, declarations, List.flatMap_def, List.flatMap_def,
    map_eq_of_forall₂ h.files fun f g hfile => hfile.declarations]

/-- The spelling of paths does not show in what is scanned for resources. -/
theorem Compilation.SameAs.unit_eq {c d : Compilation} (h : c.SameAs d) : c.unit = d.unit := by
  rw [unit, unit, h.symbolTable_eq, displayName, displayName, h.project, h.target]

namespace Workspace

variable (w : Workspace) {t : FileTree} (ht : t.WellFormed)

include ht

theorem compileTargets_matches (project : Project) {before : ReadFiles}
    (hbefore : IsFresh t before) (targets : List (Option String)) :
    ResultsMatch (List.Forall₂ Compilation.SameAs)
      (w.compileTargets t project before targets).result
      (targets.mapM (w.compileApart t project)) := by
  induction targets generalizing before with
  | nil => exact .ok .nil
  | cons target rest ih =>
    have hsources : ∀ path ∈ (project.sources t target w.ignores w.verbose).files, path.IsSolid :=
      fun _ => Project.isSolid_of_mem_sources ht
    rw [compileTargets]
    dsimp only
    obtain ⟨read, files, hread, hfiles, hsame, hafter⟩ | ⟨fault, hread, hfiles⟩ :=
      (w.readFiles_matches hbefore hsources).ok_or_error
    · have hcompile : w.compileApart t project target = .ok ⟨project.name, target, files⟩ := by
        rw [compileApart, hfiles]
        rfl
      rw [hread, mapM_cons_ok hcompile]
      exact (ih hafter).map fun _ _ h => .cons ⟨rfl, rfl, hsame⟩ h
    · have hcompile : w.compileApart t project target = .error fault := by
        rw [compileApart, hfiles]
        rfl
      rw [hread, mapM_cons_error hcompile]
      exact .error fault

/-- Files that several targets share are compiled as if each target read them on
its own. -/
theorem compileProject_matches (project : Project) :
    ResultsMatch (List.Forall₂ Compilation.SameAs) (w.compileProject t project).result
      (project.targets.mapM (w.compileApart t project)) :=
  w.compileTargets_matches ht project (fun _ h => absurd h List.not_mem_nil) project.targets

theorem compileProjects_matches (states : List ProjectState) :
    ResultsMatch (List.Forall₂ Compilation.SameAs) (w.compileProjects t states).result
      (w.compileAllApart t states) := by
  induction states with
  | nil => exact .ok .nil
  | cons state rest ih =>
    cases state with
    | failed reference fault =>
      have hstate : w.compileStateApart t (.failed reference fault) =
          .error (.failedProject reference.path fault) := rfl
      rw [compileAllApart, mapM_cons_error hstate]
      exact .error _
    | loaded project =>
      rw [compileProjects]
      dsimp only
      obtain ⟨first, compilations, hfirst, hcompilations, hsame⟩ | ⟨fault, hfirst, hfault⟩ :=
        (w.compileProject_matches ht project).ok_or_error
      · have hstate : w.compileStateApart t (.loaded project) = .ok compilations := hcompilations
        have hall : w.compileAllApart t (.loaded project :: rest) =
            (w.compileAllApart t rest).map (compilations ++ ·) := by
          rw [compileAllApart, compileAllApart, mapM_cons_ok hstate]
          cases rest.mapM (w.compileStateApart t) <;> rfl
        rw [hfirst, hall]
        exact ih.map fun _ _ h => List.rel_append hsame h
      · have hstate : w.compileStateApart t (.loaded project) = .error fault := hfault
        rw [hfirst, compileAllApart, mapM_cons_error hstate]
        exact .error fault

end Workspace

end ResourceAudit
