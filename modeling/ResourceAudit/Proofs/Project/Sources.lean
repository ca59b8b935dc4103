import Mathlib
import ResourceAudit.Project.Sources
import ResourceAudit.Proofs.FileTree.Files

/-!
# ResourceAudit.Proofs.Project.Sources

Which files are sources of a project.  Items are taken apart into parts
(`Project.parts`), of which each adds or removes the files it concerns
(`mem_change`); so a file is there after all of them if the last part that
concerns it includes it, or if no part does and it was there before
(`mem_foldl_change`).  Generated sources are added after that, and ignored files
are left out at the end (`Project.mem_sources`).

Files are compared as paths, but kept as texts.  Both come to the same as long
as every text is the one that writes its path (`AreDistinct`), which is so where
the directory of the project is written in this way.
-/

namespace ResourceAudit

/-! ## parts of items -/

/-- The parts of an item, as items of their own. -/
def CompileItem.parts (p : Properties) : CompileItem → List CompileItem
  | .include spec => (itemParts p spec).map .include
  | .remove spec => (itemParts p spec).map .remove

/-- Whether a part adds the files it concerns. -/
def CompileItem.isInclude : CompileItem → Bool
  | .include _ => true
  | .remove _ => false

/-- Whether a part names a file. -/
def CompileItem.concerns (t : FileTree) (dir : Path) (f : Path) : CompileItem → Bool
  | .include part => f ∈ (includedFiles t dir part).1
  | .remove part => isRemoved (itemPath dir part) f

/-- Adds or removes the files that a part names. -/
def change (t : FileTree) (dir : Path) (files : List Path) : CompileItem → List Path
  | .include part => addFiles files (includedFiles t dir part).1
  | .remove part => files.filter (!isRemoved (itemPath dir part) ·)

theorem files_applyItem (t : FileTree) (dir : Path) (p : Properties) (verbose : Bool) (g : Gathered)
    (item : CompileItem) :
    (applyItem t dir p verbose g item).files = (item.parts p).foldl (change t dir) g.files := by
  rcases item with spec | spec
  · rw [applyItem, CompileItem.parts, List.foldl_map]
    exact (List.foldl_hom Gathered.files fun g part => rfl).symm
  · rw [applyItem, CompileItem.parts, List.foldl_map]
    exact (List.foldl_hom Gathered.files fun g part => rfl).symm

/-- The parts of all items are taken one after the other. -/
theorem files_foldl_applyItem (t : FileTree) (dir : Path) (p : Properties) (verbose : Bool)
    (g : Gathered) (items : List CompileItem) :
    (items.foldl (applyItem t dir p verbose) g).files =
      (items.flatMap (·.parts p)).foldl (change t dir) g.files := by
  induction items generalizing g with
  | nil => rfl
  | cons item items ih =>
    rw [List.foldl_cons, ih, files_applyItem, List.flatMap_cons, List.foldl_append]

/-! ## sets of files -/

/-- Being files of which each is written as its components are, and no two are
the same. -/
structure AreDistinct (files : List Path) : Prop where
  canonical : ∀ f ∈ files, f.IsCanonical
  nodup : files.Nodup

theorem AreDistinct.filter {files : List Path} (h : AreDistinct files) (keep : Path → Bool) :
    AreDistinct (files.filter keep) :=
  ⟨fun f hf => h.canonical f (List.mem_filter.1 hf).1, h.nodup.filter keep⟩

theorem addFile_eq {files : List Path} (h : AreDistinct files) {file : Path}
    (hfile : file.IsCanonical) :
    addFile files file = if file ∈ files then files else files ++ [file] := by
  have hany : files.any file.same = true ↔ file ∈ files := by
    rw [List.any_eq_true]
    constructor
    · rintro ⟨f, hf, hsame⟩
      exact hfile.eq_of_same (h.canonical f hf) hsame ▸ hf
    · exact fun hmem => ⟨file, hmem, beq_self_eq_true _⟩
  rw [addFile]
  simp only [hany]

theorem AreDistinct.addFile {files : List Path} (h : AreDistinct files) {file : Path}
    (hfile : file.IsCanonical) : AreDistinct (addFile files file) := by
  rw [addFile_eq h hfile]
  split
  · exact h
  · next hnew =>
    refine ⟨List.forall_mem_append.2 ⟨h.canonical, by simpa using hfile⟩, ?_⟩
    rw [List.nodup_append]
    refine ⟨h.nodup, by simp, ?_⟩
    rintro f hf g hg rfl
    exact hnew (List.mem_singleton.1 hg ▸ hf)

theorem AreDistinct.addFiles {files new : List Path} (h : AreDistinct files)
    (hnew : ∀ f ∈ new, f.IsCanonical) : AreDistinct (addFiles files new) := by
  induction new generalizing files with
  | nil => exact h
  | cons file new ih =>
    rw [List.forall_mem_cons] at hnew
    exact ih (h.addFile hnew.1) hnew.2

theorem mem_addFiles {files new : List Path} (h : AreDistinct files)
    (hnew : ∀ f ∈ new, f.IsCanonical) {f : Path} :
    f ∈ addFiles files new ↔ f ∈ files ∨ f ∈ new := by
  induction new generalizing files with
  | nil => simp [addFiles]
  | cons file new ih =>
    rw [List.forall_mem_cons] at hnew
    have hrest : f ∈ addFiles files (file :: new) ↔ f ∈ addFile files file ∨ f ∈ new :=
      ih (h.addFile hnew.1) hnew.2
    rw [hrest, addFile_eq h hnew.1]
    grind

/-- A file among others that have been added was there or is one of them. -/
theorem mem_of_mem_addFiles {files new : List Path} {f : Path} (h : f ∈ addFiles files new) :
    f ∈ files ∨ f ∈ new := by
  induction new generalizing files with
  | nil => exact .inl h
  | cons file new ih =>
    rcases ih h with h | h
    · rw [addFile] at h
      split at h
      · exact .inl h
      · rcases List.mem_append.1 h with h | h
        · exact .inl h
        · exact .inr (List.mem_singleton.1 h ▸ List.mem_cons_self)
    · exact .inr (List.mem_cons_of_mem _ h)

theorem isCanonical_itemPath (dir : Path) (spec : String) : (itemPath dir spec).IsCanonical :=
  Path.isCanonical_normalize _

theorem isCanonical_of_mem_includedFiles {t : FileTree} {dir : Path} {spec : String} {f : Path}
    (hf : f ∈ (includedFiles t dir spec).1) : f.IsCanonical := by
  rw [includedFiles] at hf
  split at hf
  · split at hf
    · rw [List.mem_map] at hf
      obtain ⟨p, -, rfl⟩ := hf
      exact p.isCanonical_normalize
    · cases hf
  · split at hf
    · rw [List.mem_singleton] at hf
      exact hf ▸ isCanonical_itemPath dir spec
    · cases hf

/-! ## one part and a run of parts -/

theorem AreDistinct.change {files : List Path} (h : AreDistinct files) (t : FileTree) (dir : Path)
    (item : CompileItem) : AreDistinct (change t dir files item) := by
  rcases item with part | part
  · exact h.addFiles fun f => isCanonical_of_mem_includedFiles
  · exact h.filter _

/-- A part decides on the files it concerns and leaves the others as they are. -/
theorem mem_change {files : List Path} (h : AreDistinct files) (t : FileTree) (dir : Path)
    (item : CompileItem) (f : Path) :
    f ∈ change t dir files item ↔
      if item.concerns t dir f then item.isInclude = true else f ∈ files := by
  rcases item with part | part
  · rw [ResourceAudit.change, mem_addFiles h fun g => isCanonical_of_mem_includedFiles]
    by_cases hf : f ∈ (includedFiles t dir part).1 <;>
      simp [CompileItem.concerns, CompileItem.isInclude, hf]
  · rw [ResourceAudit.change, List.mem_filter]
    cases hf : isRemoved (itemPath dir part) f <;>
      simp [CompileItem.concerns, CompileItem.isInclude, hf]

/-- The last of some parts that concerns a file. -/
def lastConcerning? (t : FileTree) (dir : Path) (f : Path) (items : List CompileItem) :
    Option CompileItem :=
  (items.filter (·.concerns t dir f)).getLast?

theorem AreDistinct.foldl_change {files : List Path} (h : AreDistinct files) (t : FileTree)
    (dir : Path) (items : List CompileItem) :
    AreDistinct (items.foldl (ResourceAudit.change t dir) files) := by
  induction items generalizing files with
  | nil => exact h
  | cons item items ih => exact ih (h.change t dir item)

/-- The last part that concerns a file decides whether it is there. -/
theorem mem_foldl_change {files : List Path} (h : AreDistinct files) (t : FileTree) (dir : Path)
    (items : List CompileItem) (f : Path) :
    f ∈ items.foldl (change t dir) files ↔
      (∃ item, lastConcerning? t dir f items = some item ∧ item.isInclude = true) ∨
        (lastConcerning? t dir f items = none ∧ f ∈ files) := by
  induction items generalizing files with
  | nil => simp [lastConcerning?]
  | cons item items ih =>
    rw [List.foldl_cons, ih (h.change t dir item), mem_change h]
    cases hitem : item.concerns t dir f with
    | false =>
      have hsame : lastConcerning? t dir f (item :: items) = lastConcerning? t dir f items := by
        rw [lastConcerning?, List.filter_cons_of_neg (by simp [hitem])]
        rfl
      rw [hsame]
      simp
    | true =>
      have hlast : lastConcerning? t dir f (item :: items) =
          some ((lastConcerning? t dir f items).getD item) := by
        rw [lastConcerning?, List.filter_cons_of_pos hitem, List.getLast?_cons]
        rfl
      rw [hlast]
      cases lastConcerning? t dir f items <;> simp

/-- A file that is there after a run of parts was there before, or one of the
parts includes it. -/
theorem mem_of_mem_foldl_change {t : FileTree} {dir : Path} {items : List CompileItem}
    {files : List Path} {f : Path} (h : f ∈ items.foldl (change t dir) files) :
    f ∈ files ∨ ∃ part, .include part ∈ items ∧ f ∈ (includedFiles t dir part).1 := by
  induction items generalizing files with
  | nil => exact .inl h
  | cons item items ih =>
    rcases ih h with h | ⟨part, hpart, hf⟩
    · rcases item with part | part
      · exact (mem_of_mem_addFiles h).imp_right fun hf => ⟨part, List.mem_cons_self, hf⟩
      · exact .inl (List.mem_filter.1 h).1
    · exact .inr ⟨part, List.mem_cons_of_mem _ hpart, hf⟩

/-! ## projects -/

namespace Project

variable (project : Project) (t : FileTree) (target : Option String)

/-- The parts of all items of a project that is built for a target, in order. -/
def parts : List CompileItem :=
  project.items.flatMap (·.parts (project.propertiesFor target))

/-- The last part that concerns a file. -/
def lastPart? (f : Path) : Option CompileItem :=
  lastConcerning? t project.dir f (project.parts target)

/-- Being a source that a project compiles without naming it. -/
def IsDefaultSource (f : Path) : Prop :=
  project.hasDefaultItems = true ∧ ∃ files, t.scanSources project.dir = .ok files ∧ f ∈ files

/-- Being a source that builds have generated for a target. -/
def IsGenerated (f : Path) : Prop :=
  f ∈ t.scanGenerated (project.outputDir (project.propertiesFor target))

theorem files_sources (ignores : IgnoreSet) (verbose : Bool) :
    (project.sources t target ignores verbose).files =
      (sortPaths (addFiles
        ((project.parts target).foldl (change t project.dir) (project.defaultSources t verbose).files)
        (t.scanGenerated (project.outputDir (project.propertiesFor target))))).filter
          (!ignores.ignores ·) := by
  rw [sources, files_foldl_applyItem]
  rfl

variable {project t}

theorem mem_defaultSources {verbose : Bool} {f : Path} :
    f ∈ (project.defaultSources t verbose).files ↔ project.IsDefaultSource t f := by
  rw [defaultSources, IsDefaultSource]
  cases project.hasDefaultItems with
  | false => simp
  | true => cases t.scanSources project.dir <;> simp

/-- Where a source comes from, however the directory of its project is spelled. -/
theorem mem_sources_origin {ignores : IgnoreSet} {verbose : Bool} {f : Path}
    (hf : f ∈ (project.sources t target ignores verbose).files) :
    ignores.ignores f = false ∧ (project.IsDefaultSource t f ∨
      (∃ part, .include part ∈ project.parts target ∧ f ∈ (includedFiles t project.dir part).1) ∨
      project.IsGenerated t target f) := by
  rw [files_sources, List.mem_filter, mem_sortPaths, Bool.not_eq_true'] at hf
  refine ⟨hf.2, ?_⟩
  rcases mem_of_mem_addFiles hf.1 with hf | hf
  · exact (mem_of_mem_foldl_change hf).imp mem_defaultSources.1 .inl
  · exact .inr (.inr hf)

variable (ht : t.WellFormed) (hdir : project.dir.normalize = project.dir)

include hdir in
theorem isCanonical_dir : project.dir.IsCanonical := hdir ▸ project.dir.isCanonical_normalize

include ht in
theorem isCanonical_of_isGenerated {f : Path} (hf : project.IsGenerated t target f) :
    f.IsCanonical :=
  (ht.isBelow_of_mem_scanGenerated hf).isCanonical (isCanonical_itemPath _ _)

include ht in
theorem startsWith_of_isGenerated {f : Path} (hf : project.IsGenerated t target f) :
    f.startsWith (project.outputDir (project.propertiesFor target)) = true :=
  (ht.isBelow_of_mem_scanGenerated hf).startsWith

include ht hdir

theorem distinct_defaultSources (verbose : Bool) :
    AreDistinct (project.defaultSources t verbose).files := by
  have hnone : AreDistinct [] := ⟨by simp, List.nodup_nil⟩
  have hcanonical := isCanonical_dir hdir
  rw [defaultSources]
  split
  · exact hnone
  · split
    · next files hfiles =>
      refine ⟨fun f hf => (ht.isBelow_of_mem_scanSources hfiles hf).isCanonical hcanonical, ?_⟩
      exact nodup_of_pairwise_compare (ht.pairwise_scanSources hfiles)
    · exact hnone

theorem distinct_gathered (verbose : Bool) :
    AreDistinct (addFiles
      ((project.parts target).foldl (change t project.dir) (project.defaultSources t verbose).files)
      (t.scanGenerated (project.outputDir (project.propertiesFor target)))) :=
  ((distinct_defaultSources ht hdir verbose).foldl_change t project.dir _).addFiles
    fun _ => isCanonical_of_isGenerated target ht

theorem isCanonical_of_mem_sources {ignores : IgnoreSet} {verbose : Bool} {f : Path}
    (hf : f ∈ (project.sources t target ignores verbose).files) : f.IsCanonical := by
  rw [files_sources, List.mem_filter, mem_sortPaths] at hf
  exact (distinct_gathered target ht hdir verbose).canonical f hf.1

/-- A file is a source unless it is ignored, if it has been generated, if the
last part that concerns it includes it, or if no part does and it is one by
default. -/
theorem mem_sources (ignores : IgnoreSet) (verbose : Bool) (f : Path) :
    f ∈ (project.sources t target ignores verbose).files ↔
      ignores.ignores f = false ∧
        (project.IsGenerated t target f ∨
          (∃ item, project.lastPart? t target f = some item ∧ item.isInclude = true) ∨
          (project.lastPart? t target f = none ∧ project.IsDefaultSource t f)) := by
  have hstart := distinct_defaultSources ht hdir verbose
  have hgenerated : ∀ g ∈ t.scanGenerated (project.outputDir (project.propertiesFor target)),
      g.IsCanonical := fun _ => isCanonical_of_isGenerated target ht
  rw [files_sources, List.mem_filter, mem_sortPaths,
    mem_addFiles (hstart.foldl_change t project.dir _) hgenerated, mem_foldl_change hstart,
    mem_defaultSources, Bool.not_eq_true', and_comm, or_comm]
  rfl

end Project

/-- A project directory with three sources, one of them generated. -/
def sampleTree : FileTree :=
  ⟨.dir [("App", .dir [("Kept.cs", .file ⟨#[]⟩), ("Gone.cs", .file ⟨#[]⟩),
    ("obj", .dir [("Debug", .dir [("Made.cs", .file ⟨#[]⟩)])])])], []⟩

/-- A project that removes all sources but one. -/
def sampleProject : Project :=
  ⟨"App", ⟨"/App/App.csproj"⟩, true, ⟨[]⟩, [.remove "*.cs", .include "Kept.cs"]⟩

end ResourceAudit
