import ResourceAudit.Proofs.Project.Sources
import ResourceAudit.Solution

/-!
# ResourceAudit.Proofs.Project.Ignored

Which sources an entry without wildcards leaves out.  The path of the entry is
compared with the components that a file is found under, before any step up is
resolved.  So it leaves out all that lies at or below it where the spellings of
both say so already (`Project.not_mem_sources_of_liesIn`): files that are found
under resolved paths, for an entry that is resolved as well, and default
sources, for an entry that goes by way of the same steps as the directory of
their project.  Files are kept otherwise (`mem_sources_besideSolution`).
-/

namespace ResourceAudit

/-! ## resolved paths -/

/-- Lying at a path or below it, with both resolved lexically. -/
def Path.LiesIn (f p : Path) : Prop := p.normalize.components <+: f.normalize.components

/-- Having no steps that cancel and no dots. -/
def Path.IsStraight (p : Path) : Prop := p.normalize.components = p.components

instance (p : Path) : Decidable p.IsStraight :=
  inferInstanceAs (Decidable (p.normalize.components = p.components))

theorem Path.IsCanonical.isStraight {p : Path} (h : p.IsCanonical) : p.IsStraight := by
  rw [Path.IsStraight, Path.isCanonical_iff.1 h]

theorem Path.IsStraight.of_isBelow {f p : Path} (h : p.IsStraight) (hf : f.IsBelow p) :
    f.IsStraight := by
  obtain ⟨names, hnames, rfl⟩ := hf
  rw [Path.IsStraight, components_normalize_below p hnames, components_below p hnames, h]

theorem Path.LiesIn.startsWith {f p : Path} (h : f.LiesIn p) (hf : f.IsStraight)
    (hp : p.IsStraight) : f.startsWith p = true := by
  rw [Path.LiesIn, hf, hp] at h
  exact List.isPrefixOf_iff_prefix.2 h

theorem Path.isFileName_of_mem_components {p : Path} {name : String}
    (h : .name name ∈ p.components) : IsFileName name := by
  obtain ⟨front, rest, hfront, hp, hrest⟩ := p.exists_components
  have hnot : Component.name name ∉ front := by
    simp only [List.mem_cons, List.not_mem_nil, or_false] at hfront
    rcases hfront with rfl | rfl | rfl <;> simp
  rw [hp, List.mem_append] at h
  exact hrest _ (h.resolve_left hnot)

/-- What lies in a path that is spelled from the one it is found below, is spelled
below it. -/
theorem Path.LiesIn.startsWith_of_isBelow {f p q : Path} (h : f.LiesIn q) (hf : f.IsBelow p)
    {names : List String} (hq : q.components = p.components ++ names.map .name) :
    f.startsWith q = true := by
  obtain ⟨place, hplace, rfl⟩ := hf
  have hnames : ∀ name ∈ names, IsFileName name := fun name hname =>
    q.isFileName_of_mem_components (hq ▸ List.mem_append_right _ (List.mem_map_of_mem hname))
  rw [Path.LiesIn, components_normalize_append names hq hnames, ← components_normalize,
    components_normalize_below p hplace, List.prefix_append_right_inj] at h
  rw [Path.startsWith, hq, components_below p hplace, List.isPrefixOf_iff_prefix]
  exact (List.prefix_append_right_inj _).2 h

/-! ## entries without wildcards -/

theorem startsWith_join_eq_false {base : Path} {entries : List String} {entry : String}
    (hentry : entry ∈ entries) (hliteral : Glob.hasWildcard entry = false) {f : Path}
    (h : (IgnoreSet.ofEntries base entries).ignores f = false) :
    f.startsWith (base.join entry) = false := by
  rw [IgnoreSet.ignores, Bool.or_eq_false_iff, List.any_eq_false] at h
  have hmem : base.join entry ∈ (IgnoreSet.ofEntries base entries).literals :=
    List.mem_map_of_mem (List.mem_filter.2 ⟨hentry, by rw [hliteral]; rfl⟩)
  exact Bool.eq_false_iff.2 (h.1 _ hmem)

namespace Project

variable {project : Project} {t : FileTree}

theorem isBelow_of_isDefaultSource (ht : t.WellFormed) {f : Path}
    (hf : project.IsDefaultSource t f) : f.IsBelow project.dir := by
  obtain ⟨-, files, hfiles, hmem⟩ := hf
  exact ht.isBelow_of_mem_scanSources hfiles hmem

/-- Sources are found under straight paths, apart from the default sources of a
project whose directory has no such path. -/
theorem isStraight_of_mem_sources (ht : t.WellFormed) {target : Option String}
    {ignores : IgnoreSet} {verbose : Bool} {f : Path}
    (hf : f ∈ (project.sources t target ignores verbose).files)
    (hdir : project.dir.IsStraight ∨ ¬ project.IsDefaultSource t f) : f.IsStraight := by
  rcases (mem_sources_origin target hf).2 with h | ⟨part, -, h⟩ | h
  · exact (hdir.resolve_right (not_not_intro h)).of_isBelow (isBelow_of_isDefaultSource ht h)
  · exact (isCanonical_of_mem_includedFiles h).isStraight
  · exact (isCanonical_of_isGenerated target ht h).isStraight

/-- What lies at or below an entry without wildcards is no source, if the entry
and the directory of the project are spelled straight; if the entry is and the
file is none of the default sources; and if the file is one of them and the
entry is spelled by way of the directory of the project or leads to it. -/
theorem not_mem_sources_of_liesIn (ht : t.WellFormed) {target : Option String} {base : Path}
    {entries : List String} {entry : String} (hentry : entry ∈ entries)
    (hliteral : Glob.hasWildcard entry = false) {f : Path} (hf : f.LiesIn (base.join entry))
    (verbose : Bool) :
    ((base.join entry).IsStraight → project.dir.IsStraight →
        f ∉ (project.sources t target (.ofEntries base entries) verbose).files) ∧
      ((base.join entry).IsStraight → ¬ project.IsDefaultSource t f →
        f ∉ (project.sources t target (.ofEntries base entries) verbose).files) ∧
      (project.IsDefaultSource t f →
        (project.dir.startsWith (base.join entry) = true ∨
          ∃ names : List String, (base.join entry).components =
            project.dir.components ++ names.map .name) →
        f ∉ (project.sources t target (.ofEntries base entries) verbose).files) := by
  have hkept : f ∈ (project.sources t target (.ofEntries base entries) verbose).files →
      f.startsWith (base.join entry) = false := fun hmem =>
    startsWith_join_eq_false hentry hliteral (mem_sources_origin target hmem).1
  have hstraight : (base.join entry).IsStraight →
      (project.dir.IsStraight ∨ ¬ project.IsDefaultSource t f) →
      f ∉ (project.sources t target (.ofEntries base entries) verbose).files := by
    intro hpath hdir hmem
    rw [hf.startsWith (isStraight_of_mem_sources ht hmem hdir) hpath] at hkept
    cases hkept hmem
  refine ⟨fun hpath hdir => hstraight hpath (.inl hdir),
    fun hpath hdefault => hstraight hpath (.inr hdefault), fun hdefault hspelled hmem => ?_⟩
  have hbelow := isBelow_of_isDefaultSource ht hdefault
  have hstarts : f.startsWith (base.join entry) = true := by
    rcases hspelled with habove | ⟨names, hnames⟩
    · have hdir := List.isPrefixOf_iff_prefix.1 hbelow.startsWith
      exact List.isPrefixOf_iff_prefix.2 ((List.isPrefixOf_iff_prefix.1 habove).trans hdir)
    · exact hf.startsWith_of_isBelow hbelow hnames
  rw [hstarts] at hkept
  cases hkept hmem

end Project

/-- A project that its solution names by way of a step up. -/
def besideSolution : Project :=
  ⟨"App", projectPath ⟨"/build"⟩ "..\\src\\App\\App.csproj".toList, true, ⟨[]⟩, []⟩

/-- What is in the directory of the project: a default source and a generated
one. -/
def besideEntries : List (String × Node) :=
  [("Legacy", .dir [("Old.cs", .file ⟨#[]⟩)]),
    ("obj", .dir [("Debug", .dir [("Made.cs", .file ⟨#[]⟩)])])]

def besideTree : FileTree :=
  ⟨.dir [("build", .dir []), ("src", .dir [("App", .dir besideEntries)])], []⟩

theorem scanSources_besideTree :
    besideTree.scanSources besideSolution.dir = .ok [⟨"/build/../src/App/Legacy/Old.cs"⟩] := by
  have hdir : besideSolution.dir = ⟨"/build/../src/App"⟩ := by cbv
  have hpieces : (Text.fields (· == '/') "/build/../src/App".toList).map String.ofList =
      ["", "build", "..", "src", "App"] := by decide
  have habsolute : Path.isAbsolute ⟨"/build/../src/App"⟩ = true := by decide
  have hresolve : besideTree.resolve true ⟨"/build/../src/App"⟩ =
      .ok (["src", "App"], .dir besideEntries) := by
    rw [FileTree.resolve, hpieces, habsolute]
    simp [Node.walk, Node.at?, Node.child?, besideTree, List.lookup_cons]
  have hfiles : (filesOf isSourceDir 0 ⟨"/build/../src/App"⟩ (.dir besideEntries)).filter
      Path.isSource = [⟨"/build/../src/App/Legacy/Old.cs"⟩] := by decide
  rw [hdir, besideTree.scanSources_of_resolve hresolve, hfiles, sortPaths,
    List.mergeSort_singleton]

theorem not_mem_sources_besideSolution :
    Path.LiesIn ⟨"/build/../src/App/Legacy/Old.cs"⟩ (Path.join ⟨"/build"⟩ "../src/App/Legacy") ∧
      besideSolution.IsDefaultSource besideTree ⟨"/build/../src/App/Legacy/Old.cs"⟩ ∧
      ⟨"/build/../src/App/Legacy/Old.cs"⟩ ∉ (besideSolution.sources besideTree none
        (.ofEntries ⟨"/build"⟩ ["../src/App/Legacy"]) false).files := by
  have htree : besideTree.WellFormed := by decide
  have hlies : Path.LiesIn ⟨"/build/../src/App/Legacy/Old.cs"⟩
      (Path.join ⟨"/build"⟩ "../src/App/Legacy") := ⟨[.name "Old.cs"], by cbv⟩
  have hliteral : Glob.hasWildcard "../src/App/Legacy" = false := by cbv
  have hdefault : besideSolution.IsDefaultSource besideTree
      ⟨"/build/../src/App/Legacy/Old.cs"⟩ :=
    ⟨by cbv, _, scanSources_besideTree, List.mem_singleton_self _⟩
  have hspelled : (Path.join ⟨"/build"⟩ "../src/App/Legacy").components =
      besideSolution.dir.components ++ ["Legacy"].map .name := by cbv
  refine ⟨hlies, hdefault, ?_⟩
  exact (Project.not_mem_sources_of_liesIn htree (List.mem_singleton_self _) hliteral hlies
    false).2.2 hdefault (.inr ⟨_, hspelled⟩)

/-- An entry that goes by way of a step up keeps the generated sources that lie
below it, since these are found under resolved paths. -/
theorem mem_sources_besideSolution :
    besideTree.WellFormed ∧ Glob.hasWildcard "../src/App/obj" = false ∧
      Path.LiesIn ⟨"/src/App/obj/Debug/Made.cs"⟩ (Path.join ⟨"/build"⟩ "../src/App/obj") ∧
      ⟨"/src/App/obj/Debug/Made.cs"⟩ ∈ (besideSolution.sources besideTree none
        (.ofEntries ⟨"/build"⟩ ["../src/App/obj"]) false).files := by
  have hlies : Path.LiesIn ⟨"/src/App/obj/Debug/Made.cs"⟩
      (Path.join ⟨"/build"⟩ "../src/App/obj") := ⟨[.name "Debug", .name "Made.cs"], by cbv⟩
  have hgenerated : besideTree.scanGenerated
      (besideSolution.outputDir (besideSolution.propertiesFor none)) =
        [⟨"/src/App/obj/Debug/Made.cs"⟩] := by cbv
  have hdefault : (besideSolution.defaultSources besideTree false).files =
      [⟨"/build/../src/App/Legacy/Old.cs"⟩] := by
    have hitems : besideSolution.hasDefaultItems = true := by cbv
    rw [Project.defaultSources, hitems, scanSources_besideTree]
    rfl
  have hkept : (IgnoreSet.ofEntries ⟨"/build"⟩ ["../src/App/obj"]).ignores
      ⟨"/src/App/obj/Debug/Made.cs"⟩ = false := by cbv
  have hliteral : Glob.hasWildcard "../src/App/obj" = false := by cbv
  refine ⟨by decide, hliteral, hlies, ?_⟩
  rw [Project.files_sources, List.mem_filter, mem_sortPaths, hgenerated, hdefault, hkept]
  exact ⟨by decide, rfl⟩

end ResourceAudit
