import Mathlib
import ResourceAudit.Proofs.Project.Sources
import ResourceAudit.Solution

/-!
# ResourceAudit.Proofs.Project.Removal

When a removing item does what it says.  An item names files below the directory
of its project, whatever characters the names of that directory hold and however
it is spelled (`isNamed`).  A removing item compares resolved paths with files
as they have been found, though, and takes its whole path for a pattern; so it
removes the files it names if the directory is written without steps that cancel
and without characters of patterns (`not_mem_sources_of_isNamed`), and may keep
them otherwise (`mem_sources_unresolvedProject`).
-/

namespace ResourceAudit

/-! ## naming files -/

/-- Whether a character means more than itself in a pattern. -/
def Glob.isSpecial (c : Char) : Bool := c == '?' || c == '*' || c == '[' || c == ']'

/-- The pattern that matches one text only. -/
def Glob.escape (s : String) : String :=
  .ofList (s.toList.flatMap fun c => if isSpecial c then ['[', c, ']'] else [c])

/-- Whether a part of an item names a file, with both resolved against the
directory of the project, in which no character is a wildcard. -/
def isNamed (dir : Path) (part : String) (f : Path) : Bool :=
  if Glob.hasWildcard part && Glob.hasWildcard (itemPath dir part).text then
    match Glob.Pattern.ofText (itemPath ⟨Glob.escape dir.text⟩ part).text with
    | .ok pattern => pattern.matches f.normalize.text
    | .error _ => false
  else (itemPath dir part).same f.normalize

theorem Glob.escape_eq {s : String} (h : ∀ c ∈ s.toList, isSpecial c = false) : escape s = s := by
  have hchars : (s.toList.flatMap fun c => if isSpecial c then ['[', c, ']'] else [c]) =
      s.toList := by
    generalize s.toList = cs at h
    induction cs with
    | nil => rfl
    | cons c cs ih =>
      rw [List.forall_mem_cons] at h
      rw [List.flatMap_cons, ih h.2, h.1]
      rfl
  rw [escape, hchars, String.ofList_toList]

theorem Glob.hasWildcard_iff {s : String} :
    hasWildcard s = true ↔ '*' ∈ s.toList ∨ '?' ∈ s.toList := by
  have hany : hasWildcard s = s.toList.any fun c => c == '*' || c == '?' := String.contains_bool_eq
  rw [hany, List.any_eq_true]
  grind

theorem mem_of_mem_withSlashes {s : String} {c : Char} (h : c ∈ (withSlashes s).toList)
    (hc : c ≠ '/') : c ∈ s.toList := by
  rw [withSlashes, String.toList_map, List.mem_map] at h
  obtain ⟨d, hd, rfl⟩ := h
  grind

/-- The path of an item has no characters but those of its directory and of its
text, and slashes. -/
theorem mem_of_mem_itemPath {dir : Path} {part : String} {c : Char}
    (h : c ∈ (itemPath dir part).text.toList) (hc : c ≠ '/') :
    c ∈ dir.text.toList ∨ c ∈ part.toList := by
  have hjoin := (Path.mem_text_of_mem_normalize h).resolve_left hc
  have hparts := (Path.mem_text_of_mem_join hjoin).resolve_left hc
  exact hparts.imp_right fun h => mem_of_mem_withSlashes h hc

theorem hasWildcard_of_itemPath {dir : Path} {part : String}
    (h : Glob.hasWildcard (itemPath dir part).text = true) :
    Glob.hasWildcard dir.text = true ∨ Glob.hasWildcard part = true := by
  simp only [Glob.hasWildcard_iff] at h ⊢
  rcases h with h | h
  · exact (mem_of_mem_itemPath h (by decide)).imp .inl .inl
  · exact (mem_of_mem_itemPath h (by decide)).imp .inr .inr

theorem Glob.hasWildcard_eq_false {s : String} (h : ∀ c ∈ s.toList, isSpecial c = false) :
    hasWildcard s = false := by
  rw [Bool.eq_false_iff, ne_eq, hasWildcard_iff]
  rintro (hmem | hmem)
  · exact absurd (h _ hmem) (by decide)
  · exact absurd (h _ hmem) (by decide)

/-- In a directory without characters of patterns, a removing item removes those
of the resolved files that it names. -/
theorem isRemoved_itemPath {dir : Path} (hdir : ∀ c ∈ dir.text.toList, Glob.isSpecial c = false)
    (part : String) {f : Path} (hf : f.IsCanonical) :
    isRemoved (itemPath dir part) f = isNamed dir part f := by
  have hescape : (⟨Glob.escape dir.text⟩ : Path) = dir := by rw [Glob.escape_eq hdir]
  rw [isRemoved, isNamed, hescape, Path.isCanonical_iff.1 hf]
  cases hpart : Glob.hasWildcard part with
  | true =>
    cases Glob.Pattern.ofText (itemPath dir part).text <;> rfl
  | false =>
    have hplain : Glob.hasWildcard (itemPath dir part).text = false := by
      rw [Bool.eq_false_iff]
      intro h
      rcases hasWildcard_of_itemPath h with h | h
      · exact absurd h (Bool.eq_false_iff.1 (Glob.hasWildcard_eq_false hdir))
      · exact absurd h (Bool.eq_false_iff.1 hpart)
    simp only [hplain, Bool.and_false, Bool.false_eq_true, if_false]

/-! ## removing files -/

theorem lastConcerning?_append {t : FileTree} {dir f : Path} {item : CompileItem}
    (h : item.concerns t dir f = true) (before after : List CompileItem) :
    lastConcerning? t dir f (before ++ item :: after) =
      some ((lastConcerning? t dir f after).getD item) := by
  rw [lastConcerning?, List.filter_append, List.filter_cons_of_pos h, List.getLast?_append,
    List.getLast?_cons]
  rfl

theorem mem_of_lastConcerning? {t : FileTree} {dir f : Path} {items : List CompileItem}
    {item : CompileItem} (h : lastConcerning? t dir f items = some item) :
    item ∈ items ∧ item.concerns t dir f = true :=
  List.mem_filter.1 (List.mem_of_getLast? h)

/-- In a directory that is written as it is resolved and without characters of
patterns, a file that a removing item names and no later one includes is no
source, unless it is where builds leave the generated ones. -/
theorem Project.not_mem_sources_of_isNamed {project : Project} {t : FileTree} (ht : t.WellFormed)
    (hdir : project.dir.normalize = project.dir)
    (hplain : ∀ c ∈ project.dir.text.toList, Glob.isSpecial c = false)
    {target : Option String} {before after : List CompileItem} {part : String}
    (hparts : project.parts target = before ++ .remove part :: after) {f : Path}
    (hnamed : isNamed project.dir part f = true)
    (hlater : ∀ item ∈ after, item.concerns t project.dir f = true → item.isInclude = false)
    (houtput : f.startsWith (project.outputDir (project.propertiesFor target)) = false)
    (ignores : IgnoreSet) (verbose : Bool) :
    f ∉ (project.sources t target ignores verbose).files := by
  intro hf
  have hcanonical := isCanonical_of_mem_sources target ht hdir hf
  have hconcerns : (CompileItem.remove part).concerns t project.dir f = true :=
    (isRemoved_itemPath hplain part hcanonical).trans hnamed
  have hlast : project.lastPart? t target f =
      some ((lastConcerning? t project.dir f after).getD (.remove part)) := by
    rw [lastPart?, hparts, lastConcerning?_append hconcerns]
  rcases ((mem_sources target ht hdir ignores verbose f).1 hf).2 with
    h | ⟨item, hitem, hinclude⟩ | ⟨h, -⟩
  · exact absurd (startsWith_of_isGenerated target ht h) (Bool.eq_false_iff.1 houtput)
  · obtain rfl := Option.some.inj (hlast.symm.trans hitem)
    cases hafter : lastConcerning? t project.dir f after with
    | none =>
      rw [hafter] at hinclude
      cases hinclude
    | some later =>
      rw [hafter] at hinclude
      obtain ⟨hmem, hlaterConcerns⟩ := mem_of_lastConcerning? hafter
      exact absurd hinclude (Bool.eq_false_iff.1 (hlater later hmem hlaterConcerns))
  · rw [hlast] at h
    cases h

theorem not_mem_sources_sampleProject :
    isNamed sampleProject.dir "*.cs" ⟨"/App/Gone.cs"⟩ = true ∧
      ⟨"/App/Gone.cs"⟩ ∉ (sampleProject.sources sampleTree none .empty false).files := by
  have hparts : sampleProject.parts none = [] ++ .remove "*.cs" :: [.include "Kept.cs"] := by cbv
  have hplain : sampleProject.dir.text.toList.any Glob.isSpecial = false := by cbv
  have hnamed : isNamed sampleProject.dir "*.cs" ⟨"/App/Gone.cs"⟩ = true := by cbv
  have hlater : (CompileItem.include "Kept.cs").concerns sampleTree sampleProject.dir
      ⟨"/App/Gone.cs"⟩ = false := by cbv
  refine ⟨hnamed, Project.not_mem_sources_of_isNamed (by decide) (by cbv)
    (fun c hc => Bool.eq_false_iff.2 (List.any_eq_false.1 hplain c hc)) hparts hnamed ?_ (by cbv)
    .empty false⟩
  intro item hitem hconcerns
  rw [List.mem_singleton.1 hitem, hlater] at hconcerns
  cases hconcerns

/-- A project whose solution names it by way of a step up. -/
def unresolvedProject : Project :=
  ⟨"App", projectPath ⟨"/build"⟩ "..\\src\\App\\App.csproj".toList, true, ⟨[]⟩, [.remove "Gone.cs"]⟩

/-- The directories of a solution and of a project beside it. -/
def unresolvedTree : FileTree :=
  ⟨.dir [("build", .dir []), ("src", .dir [("App", .dir [("Gone.cs", .file ⟨#[]⟩)])])], []⟩

theorem resolve_unresolvedTree :
    unresolvedTree.resolve false ⟨"/build/../src/App"⟩ =
      .ok (["src", "App"], .dir [("Gone.cs", .file ⟨#[]⟩)]) := by
  have hpieces : (Text.fields (· == '/') "/build/../src/App".toList).map String.ofList =
      ["", "build", "..", "src", "App"] := by decide
  have habsolute : Path.isAbsolute ⟨"/build/../src/App"⟩ = true := by decide
  rw [FileTree.resolve, hpieces, habsolute]
  simp [Node.walk, Node.at?, Node.child?, unresolvedTree, List.lookup]

/-- A default source that is named and stays, since its directory is written with
a step that cancels. -/
theorem mem_sources_unresolvedProject :
    unresolvedProject.parts none = [.remove "Gone.cs"] ∧
      unresolvedProject.IsDefaultSource unresolvedTree ⟨"/build/../src/App/Gone.cs"⟩ ∧
      isNamed unresolvedProject.dir "Gone.cs" ⟨"/build/../src/App/Gone.cs"⟩ = true ∧
      ¬ unresolvedProject.IsGenerated unresolvedTree none ⟨"/build/../src/App/Gone.cs"⟩ ∧
      ⟨"/build/../src/App/Gone.cs"⟩ ∈
        (unresolvedProject.sources unresolvedTree none .empty false).files := by
  have hdir : unresolvedProject.dir = ⟨"/build/../src/App"⟩ := by cbv
  have hparts : unresolvedProject.parts none = [.remove "Gone.cs"] := by cbv
  have hscan : unresolvedTree.scanSources ⟨"/build/../src/App"⟩ =
      .ok [⟨"/build/../src/App/Gone.cs"⟩] := by
    simp only [FileTree.scanSources, FileTree.filesBelow, resolve_unresolvedTree]
    cbv
  have hdefault : unresolvedProject.IsDefaultSource unresolvedTree
      ⟨"/build/../src/App/Gone.cs"⟩ := ⟨by cbv, _, hdir ▸ hscan, List.mem_singleton_self _⟩
  have hnamed : isNamed ⟨"/build/../src/App"⟩ "Gone.cs" ⟨"/build/../src/App/Gone.cs"⟩ = true := by
    cbv
  have hkept : isRemoved (itemPath ⟨"/build/../src/App"⟩ "Gone.cs")
      ⟨"/build/../src/App/Gone.cs"⟩ = false := by cbv
  have hgenerated : unresolvedTree.scanGenerated
      (unresolvedProject.outputDir (unresolvedProject.propertiesFor none)) = [] := by cbv
  refine ⟨hparts, hdefault, hdir ▸ hnamed, ?_, ?_⟩
  · rw [Project.IsGenerated, hgenerated]
    exact List.not_mem_nil
  · rw [Project.files_sources, List.mem_filter, mem_sortPaths, hgenerated, hparts, hdir]
    refine ⟨List.mem_filter.2 ⟨Project.mem_defaultSources.2 hdefault, ?_⟩, rfl⟩
    rw [hkept]
    rfl

-- a bracket in the name of a directory begins a class of characters
example : isNamed ⟨"/src[1]"⟩ "*.cs" ⟨"/src[1]/Gone.cs"⟩ = true ∧
    isRemoved (itemPath ⟨"/src[1]"⟩ "*.cs") ⟨"/src[1]/Gone.cs"⟩ = false := by
  constructor <;> cbv

end ResourceAudit
