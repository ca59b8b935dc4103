import ResourceAudit.Proofs.Workspace.Retrieval

/-!
# ResourceAudit.Proofs.Workspace.Sharing

What the targets of a project share.  A file that an earlier target has read is
not read again, and it keeps the path under which it was read first; nothing else
of this shows.  Target by target there is the compilation of that target on its
own, up to the spelling of paths, and where there is none, the failure is that of
the first target that fails on its own (`Workspace.compileProject_agrees`).
-/

namespace ResourceAudit

/-- Being the same compilation up to the spelling of paths: of the same files, one
by one, with the same symbols and declarations. -/
structure Compilation.Agrees (c d : Compilation) : Prop where
  sameAs : c.SameAs d
  symbols_eq : c.symbols = d.symbols
  references_eq : c.symbolTable.references = d.symbolTable.references
  unit_eq : c.unit = d.unit

theorem Compilation.SameAs.agrees {c d : Compilation} (h : c.SameAs d) : c.Agrees d where
  sameAs := h
  symbols_eq := congrArg SymbolTable.symbols h.symbolTable_eq
  references_eq := congrArg SymbolTable.references h.symbolTable_eq
  unit_eq := h.unit_eq

/-- That files are read once for all targets of a project does not show.  The
project is compiled if each target is on its own, with every file read for it; its
compilations are then, target by target, those.  Otherwise it fails as the first
target does that fails on its own. -/
theorem Workspace.compileProject_agrees {t : FileTree} (ht : t.WellFormed) (w : Workspace)
    (project : Project) :
    ((∃ cs, (w.compileProject t project).result = .ok cs) ↔
      ∀ target ∈ project.targets, ∃ d, w.compileApart t project target = .ok d) ∧
    (∀ cs, (w.compileProject t project).result = .ok cs →
      List.Forall₂ (fun target c => ∃ d, w.compileApart t project target = .ok d ∧ c.Agrees d)
        project.targets cs) ∧
    (∀ fault, (w.compileProject t project).result = .error fault ↔
      ∃ before target after, project.targets = before ++ target :: after ∧
        (∀ earlier ∈ before, ∃ d, w.compileApart t project earlier = .ok d) ∧
        w.compileApart t project target = .error fault) := by
  rw [← exists_mapM_ok_iff]
  simp only [← mapM_eq_error_iff]
  obtain ⟨cs, ds, hcs, hds, hsame⟩ | ⟨fault, hcs, hds⟩ :=
    (w.compileProject_matches ht project).ok_or_error
  · simp only [hcs, hds, Except.ok.injEq, exists_eq', reduceCtorEq, implies_true, and_true,
      forall_eq', true_and]
    exact forall₂_trans (fun _ d _ hd hc => ⟨d, hd, Compilation.SameAs.agrees hc⟩)
      (mapM_eq_ok_iff.1 hds) (List.Forall₂.flip hsame)
  · simp [hcs, hds]

/-- A project with an empty source. -/
def sharedTree : FileTree := ⟨.dir [("App", .dir [("Kept.cs", .file ⟨#[]⟩)])], []⟩

/-- A project that names its target twice. -/
def sharingProject : Project :=
  ⟨"App", ⟨"/App/App.csproj"⟩, true, ⟨[("targetframeworks", "net8;net8")]⟩, []⟩

theorem compileProject_agrees_sharingProject :
    sharedTree.WellFormed ∧
      ∃ cs, (plainWorkspace.compileProject sharedTree sharingProject).result = .ok cs ∧
        List.Forall₂ (fun target c => ∃ d,
          plainWorkspace.compileApart sharedTree sharingProject target = .ok d ∧ c.Agrees d)
          [some "net8", some "net8"] cs := by
  have htree : sharedTree.WellFormed := by decide
  have htargets : sharingProject.targets = [some "net8", some "net8"] := by cbv
  have hpaths : (sharingProject.sources sharedTree (some "net8") .empty false).files =
      [⟨"/App/Kept.cs"⟩] := by cbv
  have hkept : sharedTree.read ⟨"/App/Kept.cs"⟩ = .ok "" := by cbv
  have hapart : ∃ d, plainWorkspace.compileApart sharedTree sharingProject (some "net8") = .ok d := by
    rw [plainWorkspace.exists_compileApart_iff]
    show ∀ f ∈ (sharingProject.sources sharedTree (some "net8") .empty false).files, _
    simp [hpaths, hkept]
  obtain ⟨hiff, hagrees, -⟩ :=
    Workspace.compileProject_agrees htree plainWorkspace sharingProject
  rw [htargets] at hiff hagrees
  obtain ⟨cs, hcs⟩ := hiff.2 (by simp [hapart])
  exact ⟨htree, cs, hcs, hagrees cs hcs⟩

end ResourceAudit
