import ResourceAudit.Proofs.Project.Sources

/-!
# ResourceAudit.Proofs.Project.Outputs

The directories that builds leave generated sources in.  Those of two targets
lie side by side (`Project.exists_components_outputDir`), so what has been
generated for one target is not what has been generated for another.  It is a
default source of all of them, though, wherever the scan for default sources
does not pass its directory over (`mem_sources_artifactsProject`).
-/

namespace ResourceAudit

open ResourceAudit.Text

/-- Being the name of a file in which no backslash stands for a slash. -/
def IsPlainName (s : String) : Prop := IsFileName s ∧ '\\' ∉ s.toList

instance (s : String) : Decidable (IsPlainName s) :=
  inferInstanceAs (Decidable (IsFileName s ∧ '\\' ∉ s.toList))

theorem withSlashes_append (s t : String) :
    withSlashes (s ++ t) = withSlashes s ++ withSlashes t := by
  rw [withSlashes, withSlashes, withSlashes, ← String.toList_inj]
  simp only [String.toList_map, String.toList_append, List.map_append]

theorem withSlashes_of_not_mem {s : String} (h : '\\' ∉ s.toList) : withSlashes s = s := by
  have hsame : ∀ c ∈ s.toList, (if c = '\\' then '/' else c) = c := fun c hc =>
    if_neg fun (he : c = '\\') => h (he ▸ hc)
  rw [withSlashes, ← String.toList_inj, String.toList_map, List.map_congr_left hsame]
  exact List.map_id' _

theorem Properties.isFalse_of_get? {p : Properties} {name : String} (key : String)
    (hkey : foldCase name = key) (h : p.get? key = none) : p.isFalse name = false := by
  rw [isFalse, find?, hkey, h]
  rfl

/-- Lying below a directory, with both resolved lexically. -/
def Path.IsInside (f dir : Path) : Prop :=
  ∃ c rest, f.normalize.components = dir.normalize.components ++ c :: rest

/-- Whether the scan for default sources passes over what is below these
directories, of which the first is in the directory of the project. -/
def IsPassedOver (dirs : List String) : Prop :=
  dirs.head? = some "bin" ∨ dirs.head? = some "obj" ∨ ∃ d ∈ dirs, d.toList.head? = some '.'

theorem IsPassedOver.entersAll_eq_false {dirs : List String} (h : IsPassedOver dirs)
    (more : List String) : entersAll isSourceDir 1 (dirs ++ more) = false := by
  rw [Bool.eq_false_iff, ne_eq, entersAll_isSourceDir]
  rintro ⟨hhidden, hbin, hobj⟩
  have hhead : ∀ name, dirs.head? = some name → (dirs ++ more).head? = some name := by
    intro name hname
    rw [List.head?_append, hname, Option.some_or]
  rcases h with h | h | ⟨d, hd, h⟩
  · exact hbin (hhead _ h)
  · exact hobj (hhead _ h)
  · exact hhidden d (List.mem_append_left _ hd) h

namespace Project

variable (project : Project)

/-! ## directories of targets -/

/-- The directory for generated sources as it is written in front of the
framework. -/
def outputBase : String :=
  match project.properties.get? "intermediateoutputpath" with
  | some path => withoutEndSlashes path
  | none =>
    withoutEndSlashes ((project.properties.get? "baseintermediateoutputpath").getD "obj") ++ "/" ++
      (project.properties.get? "configuration").getD "Debug"

theorem propertiesFor_some (target : String) : project.propertiesFor (some target) =
    ⟨("targetframework", target) :: project.properties.entries⟩ := by
  have hfold : foldCase "targetframework" = "targetframework" := by cbv
  rw [propertiesFor, Properties.set, hfold]

theorem get?_propertiesFor (target : String) {key : String} (h : key ≠ "targetframework") :
    (project.propertiesFor (some target)).get? key = project.properties.get? key := by
  rw [propertiesFor_some, Properties.get?, List.lookup_cons, beq_eq_false_iff_ne.2 h]
  rfl

variable {project}
  (happend : project.properties.isFalse "AppendTargetFrameworkToOutputPath" = false)

include happend in
theorem outputDir_propertiesFor (target : String) :
    project.outputDir (project.propertiesFor (some target)) =
      itemPath project.dir (project.outputBase ++ "/" ++ (target ++ "/")) := by
  have hframework : (project.propertiesFor (some target)).get? "targetframework" = some target := by
    rw [propertiesFor_some, Properties.get?, List.lookup_cons_self]
  have hfalse : (project.propertiesFor (some target)).isFalse
      "AppendTargetFrameworkToOutputPath" = false := by
    have hfold : foldCase "AppendTargetFrameworkToOutputPath" ≠ "targetframework" := by
      have hlower : foldCase "AppendTargetFrameworkToOutputPath" =
          "appendtargetframeworktooutputpath" := by cbv
      rw [hlower]
      decide
    rw [Properties.isFalse, Properties.find?, project.get?_propertiesFor target hfold]
    exact happend
  rw [outputDir, outputBase, hframework, hfalse, project.get?_propertiesFor target (by decide),
    project.get?_propertiesFor target (by decide), project.get?_propertiesFor target (by decide)]
  rfl

include happend in
/-- The directories of all targets have the same components but for the last,
which is the name of the target. -/
theorem exists_components_outputDir :
    ∃ front : List Component, ∀ target, IsPlainName target →
      (project.outputDir (project.propertiesFor (some target))).components =
        front ++ [.name target] := by
  obtain ⟨front, hfront⟩ := project.dir.exists_components_join (withSlashes project.outputBase)
  refine ⟨front.foldl resolveStep [], fun target htarget => ?_⟩
  obtain ⟨hname, hplain⟩ := htarget
  have htail : withSlashes (target ++ "/") = target ++ "/" :=
    withSlashes_of_not_mem (by simp [hplain])
  have hpieces : componentsOf (fields (· == '/') (target ++ "/").toList) = [.name target] := by
    have hslash : "/".toList = '/' :: [] := rfl
    rw [String.toList_append, hslash, fields_append_sep, fields_of_not_mem hname.2.2.2,
      componentsOf_append, componentsOf_singleton hname]
    rfl
  have hjoined := hfront (target ++ "/")
  rw [hpieces] at hjoined
  rw [outputDir_propertiesFor happend, itemPath, withSlashes_append, withSlashes_append, htail,
    withSlashes_of_not_mem (s := "/") (by decide)]
  exact Path.components_normalize_append [target] hjoined (by simpa using hname)

theorem normalize_outputDir (p : Properties) :
    (project.outputDir p).normalize = project.outputDir p :=
  Path.isCanonical_iff.1 (isCanonical_itemPath _ _)

/-! ## sources of targets -/

section Targets

variable {t : FileTree} (ht : t.WellFormed) {target other : String} {f : Path}

include ht in
/-- What has been generated for one target does not lie in the directory of
another one. -/
theorem not_isGenerated_of_isInside
    (happend : project.properties.isFalse "AppendTargetFrameworkToOutputPath" = false)
    (htarget : IsPlainName target) (hother : IsPlainName other) (hne : target ≠ other)
    (hf : f.IsInside (project.outputDir (project.propertiesFor (some other)))) :
    ¬ project.IsGenerated t (some target) f := by
  intro hgenerated
  obtain ⟨front, hfront⟩ := exists_components_outputDir happend
  have hcanonical := Path.isCanonical_iff.1 (isCanonical_of_isGenerated _ ht hgenerated)
  have hprefix := startsWith_of_isGenerated _ ht hgenerated
  obtain ⟨c, rest, hinside⟩ := hf
  rw [hcanonical, normalize_outputDir, hfront other hother] at hinside
  rw [Path.startsWith, List.isPrefixOf_iff_prefix, hfront target htarget, hinside,
    List.append_assoc, List.prefix_append_right_inj] at hprefix
  obtain ⟨more, hmore⟩ := hprefix
  exact hne (Component.name.inj (List.cons.inj hmore).1)

include ht in
/-- A default source does not lie where the scan passes over. -/
theorem not_isDefaultSource_of_isInside {dir : Path} {inner : List String}
    (hdir : dir.normalize.components = project.dir.normalize.components ++ inner.map .name)
    (hinner : IsPassedOver inner) (hf : f.IsInside dir) : ¬ project.IsDefaultSource t f := by
  rintro ⟨-, files, hfiles, hmem⟩
  obtain ⟨place, hplace, rfl, henters⟩ := ht.exists_place_of_mem_scanSources hfiles hmem
  obtain ⟨c, rest, hinside⟩ := hf
  rw [Path.components_normalize_below _ hplace, hdir, List.append_assoc,
    List.append_cancel_left_eq, List.map_eq_append_iff] at hinside
  obtain ⟨before, after, rfl, hbefore, hafter⟩ := hinside
  obtain rfl : before = inner := (List.map_inj_right fun _ _ => Component.name.inj).1 hbefore
  have hne : after ≠ [] := by
    rintro rfl
    cases hafter
  rw [List.dropLast_append_of_ne_nil hne, hinner.entersAll_eq_false] at henters
  cases henters

/-- In a project without compile items, what lies in the directory for the
generated sources of one target has not been generated for another one; so it is
a source of that one only if it is so by default, and it is none if the scan for
default sources passes over the directory. -/
theorem sources_of_other_target (ht : t.WellFormed) (hitems : project.items = [])
    (happend : project.properties.isFalse "AppendTargetFrameworkToOutputPath" = false)
    (htarget : IsPlainName target) (hother : IsPlainName other) (hne : target ≠ other)
    (hf : f.IsInside (project.outputDir (project.propertiesFor (some other))))
    (ignores : IgnoreSet) (verbose : Bool) :
    ¬ project.IsGenerated t (some target) f ∧
      (f ∈ (project.sources t (some target) ignores verbose).files →
        project.IsDefaultSource t f) ∧
      ((∃ inner, IsPassedOver inner ∧
          (project.outputDir (project.propertiesFor (some other))).components =
            project.dir.normalize.components ++ inner.map .name) →
        f ∉ (project.sources t (some target) ignores verbose).files) := by
  have hgenerated := not_isGenerated_of_isInside ht happend htarget hother hne hf
  have hdefault : f ∈ (project.sources t (some target) ignores verbose).files →
      project.IsDefaultSource t f := by
    intro hmem
    rcases (mem_sources_origin _ hmem).2 with h | ⟨part, hpart, -⟩ | h
    · exact h
    · rw [parts, hitems] at hpart
      cases hpart
    · exact absurd h hgenerated
  refine ⟨hgenerated, hdefault, ?_⟩
  rintro ⟨inner, hinner, hcomponents⟩ hmem
  rw [← normalize_outputDir] at hcomponents
  exact not_isDefaultSource_of_isInside ht hcomponents hinner hf (hdefault hmem)

end Targets

end Project

/-- A project for two targets, with nothing said about its directories. -/
def twoTargets : Project :=
  ⟨"App", ⟨"/App/App.csproj"⟩, true, ⟨[("targetframeworks", "net8.0;net472")]⟩, []⟩

/-- Sources that have been generated for two targets. -/
def twoTargetsTree : FileTree :=
  ⟨.dir [("App", .dir [("Program.cs", .file ⟨#[]⟩), ("obj", .dir [("Debug", .dir [
    ("net8.0", .dir [("Strings.cs", .file ⟨#[]⟩)]),
    ("net472", .dir [("Strings.cs", .file ⟨#[]⟩)])])])])], []⟩

theorem sources_of_other_target_twoTargets :
    twoTargets.targets = [some "net8.0", some "net472"] ∧
      ⟨"/App/obj/Debug/net472/Strings.cs"⟩ ∉
        (twoTargets.sources twoTargetsTree (some "net8.0") .empty false).files := by
  have htargets : twoTargets.targets = [some "net8.0", some "net472"] := by cbv
  have happend : twoTargets.properties.isFalse "AppendTargetFrameworkToOutputPath" = false :=
    Properties.isFalse_of_get? "appendtargetframeworktooutputpath" (by cbv) (by decide)
  have hbase : twoTargets.outputBase = "obj/Debug" := by cbv
  have hdir : twoTargets.dir = ⟨"/App"⟩ := by cbv
  have houtput : twoTargets.outputDir (twoTargets.propertiesFor (some "net472")) =
      ⟨"/App/obj/Debug/net472"⟩ := by
    rw [Project.outputDir_propertiesFor happend, hbase, hdir]
    cbv
  have hinside : Path.IsInside ⟨"/App/obj/Debug/net472/Strings.cs"⟩
      (twoTargets.outputDir (twoTargets.propertiesFor (some "net472"))) := by
    rw [houtput]
    exact ⟨.name "Strings.cs", [], by cbv⟩
  have htree : twoTargetsTree.WellFormed := by decide
  have htarget : IsPlainName "net8.0" := by decide
  have hother : IsPlainName "net472" := by decide
  refine ⟨htargets, (Project.sources_of_other_target htree rfl happend htarget hother (by decide)
    hinside .empty false).2.2 ⟨["obj", "Debug", "net472"], .inr (.inl rfl), ?_⟩⟩
  rw [houtput, hdir]
  decide

/-- A project that says where builds leave what they make. -/
def artifactsProject : Project :=
  ⟨"App", ⟨"/App/App.csproj"⟩, true,
    ⟨[("intermediateoutputpath", "artifacts/"), ("targetframeworks", "net8.0;net472")]⟩, []⟩

def artifactsTree : FileTree :=
  ⟨.dir [("App", .dir [("Program.cs", .file ⟨#[]⟩), ("artifacts", .dir [
    ("net8.0", .dir [("Strings.cs", .file ⟨#[]⟩)]),
    ("net472", .dir [("Strings.cs", .file ⟨#[]⟩)])])])], []⟩

/-- The scan for default sources finds what has been generated for another target,
if that is not in a directory that it passes over. -/
theorem mem_sources_artifactsProject :
    artifactsTree.WellFormed ∧ artifactsProject.targets = [some "net8.0", some "net472"] ∧
      artifactsProject.properties.isFalse "AppendTargetFrameworkToOutputPath" = false ∧
      Path.IsInside ⟨"/App/artifacts/net472/Strings.cs"⟩
        (artifactsProject.outputDir (artifactsProject.propertiesFor (some "net472"))) ∧
      ⟨"/App/artifacts/net472/Strings.cs"⟩ ∈
        (artifactsProject.sources artifactsTree (some "net8.0") .empty false).files := by
  have htree : artifactsTree.WellFormed := by decide
  have hprojectDir : artifactsProject.dir = ⟨"/App"⟩ := by cbv
  have hresolve : ∃ entries, artifactsTree.resolve true artifactsProject.dir =
      .ok (["App"], .dir entries) := by
    have hpieces : (fields (· == '/') "/App".toList).map String.ofList = ["", "App"] := by decide
    have habsolute : Path.isAbsolute ⟨"/App"⟩ = true := by decide
    rw [hprojectDir, FileTree.resolve, hpieces, habsolute]
    simp [Node.walk, Node.at?, Node.child?, artifactsTree]
  have hdefault : artifactsProject.IsDefaultSource artifactsTree
      ⟨"/App/artifacts/net472/Strings.cs"⟩ := by
    obtain ⟨entries, hresolve⟩ := hresolve
    have hitems : artifactsProject.properties.isFalse "EnableDefaultItems" = false :=
      Properties.isFalse_of_get? "enabledefaultitems" (by cbv) (by decide)
    have hcompile : artifactsProject.properties.isFalse "EnableDefaultCompileItems" = false :=
      Properties.isFalse_of_get? "enabledefaultcompileitems" (by cbv) (by decide)
    refine ⟨by rw [Project.hasDefaultItems, hitems, hcompile]; rfl, _,
      artifactsTree.scanSources_of_resolve hresolve, ?_⟩
    rw [mem_sortPaths, List.mem_filter, artifactsTree.mem_filesOf_of_resolve htree _ hresolve]
    refine ⟨⟨["artifacts", "net472"], "Strings.cs", ⟨⟨#[]⟩, rfl⟩, ?_, by decide⟩, by decide⟩
    rw [hprojectDir]
    decide
  have htargets : artifactsProject.targets = [some "net8.0", some "net472"] := by cbv
  have happend : artifactsProject.properties.isFalse "AppendTargetFrameworkToOutputPath" = false :=
    Properties.isFalse_of_get? "appendtargetframeworktooutputpath" (by cbv) (by decide)
  have hbase : artifactsProject.outputBase = "artifacts" := by cbv
  have hinside : Path.IsInside ⟨"/App/artifacts/net472/Strings.cs"⟩
      (artifactsProject.outputDir (artifactsProject.propertiesFor (some "net472"))) := by
    have houtput : itemPath ⟨"/App"⟩ ("artifacts" ++ "/" ++ ("net472" ++ "/")) =
        ⟨"/App/artifacts/net472"⟩ := by cbv
    rw [Project.outputDir_propertiesFor happend, hbase, hprojectDir, houtput]
    exact ⟨.name "Strings.cs", [], by cbv⟩
  have hdir : artifactsProject.dir.normalize = artifactsProject.dir := by cbv
  have hlast : artifactsProject.lastPart? artifactsTree (some "net8.0")
      ⟨"/App/artifacts/net472/Strings.cs"⟩ = none := rfl
  refine ⟨htree, htargets, happend, hinside, ?_⟩
  exact (Project.mem_sources (some "net8.0") htree hdir .empty false _).2
    ⟨rfl, .inr (.inr ⟨hlast, hdefault⟩)⟩

end ResourceAudit
