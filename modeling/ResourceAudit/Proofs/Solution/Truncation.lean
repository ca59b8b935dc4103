import ResourceAudit.Proofs.Documentation.MemberName
import ResourceAudit.Proofs.Documentation.Truncation
import ResourceAudit.Proofs.Project.Frames
import ResourceAudit.Proofs.Solution.Formats

/-!
# ResourceAudit.Proofs.Solution.Truncation

Solutions of XML that break off.  Wherever a document of one element is cut before its
end, it gives no documentation entry and cannot be evaluated as a project file: there
is a fault, or an element is left open.  A solution does not look at open elements:
cut inside a piece of markup it cannot be read, but cut between parts it lists the
projects in front of the cut as if there were no more (`projectsOfXml_of_isPrefix`).
-/

namespace ResourceAudit

open ResourceAudit.Text ResourceAudit.Xml

/-! ## projects in front of a cut -/

section Projects

variable {dir : Path}

/-- The projects that events list depend on the tags they bring. -/
theorem projectsOfEvents_of_tags {events : List Event} {tags : List WrittenTag}
    (h : events.filterMap Event.tag? = tags.map WrittenTag.tag) :
    projectsOfEvents dir events =
      .ok ((tags.filterMap WrittenTag.projectPath?).filterMap (projectAt? dir)) := by
  induction events generalizing tags with
  | nil =>
    obtain rfl : tags = [] := List.map_eq_nil_iff.1 h.symm
    rfl
  | cons event rest ih =>
    cases event with
    | «opened» tag | empty tag =>
      obtain ⟨t, ts, rfl, rfl, hrest⟩ := List.map_eq_cons_iff.1 h.symm
      rw [projectsOfEvents, projectElement?_tag, ih hrest.symm, List.filterMap_cons]
      cases t.projectPath? with
      | none => rfl
      | some path =>
        rw [List.filterMap_cons]
        change Except.ok ((projectAt? dir path).toList ++ _) = _
        cases projectAt? dir path <;> rfl
    | _ => exact ih h

/-- A solution that is cut between its parts lists the projects in front of the cut. -/
theorem projectsOfXml_of_isCut {f : Forest} {u : List Char} {tags : List WrittenTag} {n : Nat}
    (h : f.IsCut u tags n) :
    projectsOfXml dir (.ofList u) =
      .ok ((tags.filterMap WrittenTag.projectPath?).filterMap (projectAt? dir)) := by
  rw [projectsOfXml_ofList, projectsOfEvents_of_tags (h.filterMap_tag? []), h.fault_readFrom]
  rfl

/-- The projects in front of the cut are the first ones of the whole. -/
theorem exists_projectsOfXml_of_isCut {f : Forest} {u : List Char} {tags : List WrittenTag} {n : Nat}
    (h : f.IsCut u tags n) :
    ∃ others, projectsOfXml dir (.ofList f.source) =
      .ok ((tags.filterMap WrittenTag.projectPath?).filterMap (projectAt? dir) ++ others) := by
  obtain ⟨more, hmore⟩ := h.tags_isPrefix
  rw [projectsOfXml_source, Forest.projectPaths, ← hmore, List.filterMap_append,
    List.filterMap_append]
  exact ⟨_, rfl⟩

/-- Nothing is listed where the markup has a fault. -/
theorem projectsOfXml_ne_ok {s : List Char} (h : (readFrom [] s).fault ≠ none)
    (projects : List ProjectReference) : projectsOfXml dir (.ofList s) ≠ .ok projects := by
  rw [projectsOfXml_ofList]
  intro hok
  obtain ⟨listed, -, hlisted⟩ := exists_of_bind_eq_ok hok
  split at hlisted
  · cases hlisted
  · next hnone => exact h hnone

/-- What is left of a solution is read if and only if the cut is between parts or in
character data. -/
theorem projectsOfXml_eq_ok_iff {f : Forest} {u : List Char} (hu : u <+: f.source)
    {projects : List ProjectReference} :
    projectsOfXml dir (.ofList u) = .ok projects ↔
      ∃ tags n, f.IsCut u tags n ∧
        projects = (tags.filterMap WrittenTag.projectPath?).filterMap (projectAt? dir) := by
  constructor
  · intro hok
    cases f.isCutOrFault_of_isPrefix hu with
    | inl hcut =>
      obtain ⟨tags, n, hcut⟩ := hcut
      rw [projectsOfXml_of_isCut hcut, Except.ok.injEq] at hok
      exact ⟨tags, n, hcut, hok.symm⟩
    | inr hfault => exact absurd hok (projectsOfXml_ne_ok (hfault []) projects)
  · rintro ⟨tags, n, hcut, rfl⟩
    exact projectsOfXml_of_isCut hcut

end Projects

/-! ## documents without tags -/

/-- Without tags no name is found. -/
theorem Extraction.name_of_foldlM_step {events : List Event} {x y : Extraction}
    (htags : events.filterMap Event.tag? = []) (h : events.foldlM Extraction.step x = some y) :
    y.name = x.name := by
  induction events generalizing x with
  | nil =>
    cases h
    rfl
  | cons event rest ih =>
    rw [List.filterMap_eq_nil_iff, List.forall_mem_cons, ← List.filterMap_eq_nil_iff] at htags
    obtain ⟨z, hz, hrest⟩ := Option.bind_eq_some_iff.1 h
    rw [ih htags.2 hrest, name_of_untagged htags.1 hz]

theorem entryOfMarkup_of_untagged {s : List Char}
    (h : (readFrom [] s).events.filterMap Event.tag? = []) : entryOfMarkup (.ofList s) = none := by
  rw [entryOfMarkup_ofList]
  cases hx : (readFrom [] s).events.foldlM Extraction.step ⟨none, none, 0, 0, []⟩ with
  | none => rfl
  | some x =>
    have hname : x.name = none := Extraction.name_of_foldlM_step h hx
    have hentry : x.toEntry = none := by
      rw [Extraction.toEntry_eq, hname]
      split <;> rfl
    rw [Option.bind_some, hentry]
    exact Option.bind_fun_none _

/-- Without a tag there is no root. -/
theorem Evaluation.hasRoot_of_untagged {e y : Evaluation} {event : Event}
    (htag : event.tag? = none) (h : e.step event = .ok y) : y.hasRoot = e.hasRoot := by
  cases event with
  | «opened» tag | empty tag => cases htag
  | text raw =>
    obtain ⟨text, rfl⟩ := exists_addText_of_step_text h
    rfl
  | cdata text =>
    cases h
    rfl
  | closed name =>
    cases h
    cases hframes : e.frames with
    | nil => rw [close, hframes]
    | cons frame outer =>
      obtain ⟨properties, hclose, -⟩ := close_eq hframes
      rw [hclose]
  | other =>
    cases h
    rfl

theorem Evaluation.hasRoot_of_foldlM_step {events : List Event} {e y : Evaluation}
    (htags : events.filterMap Event.tag? = []) (h : events.foldlM Evaluation.step e = .ok y) :
    y.hasRoot = e.hasRoot := by
  refine foldlM_invariant (I := fun done z => done.filterMap Event.tag? = [] →
    z.hasRoot = e.hasRoot) (fun _ => rfl) ?_ h htags
  intro done x event z hx hz htags
  rw [List.filterMap_append, List.append_eq_nil_iff] at htags
  obtain ⟨hdone, hevent⟩ := htags
  rw [List.filterMap_eq_nil_iff, List.forall_mem_singleton] at hevent
  rw [hasRoot_of_untagged hevent hz, hx hdone]

/-! ## project files -/

section Files

variable {s : List Char}

/-- A file is no project where the root is missing or something is open at the end. -/
theorem exists_error_ofText (reference : ProjectReference) (toolchain : Path)
    (h : ∀ e, (readFrom [] s).fault = none →
      (readFrom [] s).events.foldlM Evaluation.step (.start reference toolchain) = .ok e →
      e.hasRoot = false ∨ e.frames ≠ []) :
    ∃ fault, Project.ofText reference toolchain (.ofList s) = .error fault := by
  rw [ofText_ofList]
  cases hrun : (readFrom [] s).events.foldlM Evaluation.step (.start reference toolchain) with
  | error fault => exact ⟨fault, rfl⟩
  | ok e =>
    change ∃ fault, e.finish reference (readFrom [] s).fault = .error fault
    cases hfault : (readFrom [] s).fault with
    | some fault => exact ⟨_, rfl⟩
    | none =>
      simp only [Evaluation.finish]
      cases h e hfault hrun with
      | inl hroot => exact ⟨.noRoot, by simp [hroot]⟩
      | inr hframes =>
        by_cases hroot : e.hasRoot = true
        · exact ⟨.unclosed, by simp [hroot, hframes]⟩
        · exact ⟨.noRoot, by simp [hroot]⟩

theorem exists_error_ofText_of_untagged (reference : ProjectReference) (toolchain : Path)
    (h : (readFrom [] s).events.filterMap Event.tag? = []) :
    ∃ fault, Project.ofText reference toolchain (.ofList s) = .error fault :=
  exists_error_ofText reference toolchain fun _ _ hrun =>
    .inl (Evaluation.hasRoot_of_foldlM_step h hrun)

/-- A text that leaves an element open is no project file. -/
theorem exists_error_ofText_of_leavesOpen (reference : ProjectReference) (toolchain : Path)
    (h : (readFrom [] s).LeavesOpen)
    (hopen : (readFrom [] s).fault = none → ∃ n, openAfter 0 (readFrom [] s).events = some n) :
    ∃ fault, Project.ofText reference toolchain (.ofList s) = .error fault := by
  refine exists_error_ofText reference toolchain fun e hfault hrun => .inr ?_
  obtain ⟨n, hn⟩ := hopen hfault
  have hat := (Evaluation.isAt_start reference toolchain).foldlM_step hrun
  have hlength := congrArg List.length hat.names
  rw [elementNames, List.length_map, List.length_map, length_openTags [] hn] at hlength
  have hpos : 0 < n := h hfault 0 n hn
  exact List.ne_nil_of_length_pos (hlength ▸ hpos)

end Files

/-! ## documents that break off -/

/-- A document of one element, with what comes before it. -/
def Xml.Forest.rooted (prolog : Forest) (tag : WrittenTag) (content : Forest) (gap : Gap) : Forest :=
  prolog.append (.element tag content gap .nil)

/-- A document that is cut before the end of its element has no tags or leaves an element
open. -/
theorem untagged_or_leavesOpen {prolog content : Forest} {tag : WrittenTag} {gap : Gap}
    (hprolog : prolog.tags = []) {u : List Char} (hu : u <+: (prolog.rooted tag content gap).source)
    (hne : u ≠ (prolog.rooted tag content gap).source) :
    (readFrom [] u).events.filterMap Event.tag? = [] ∨ (readFrom [] u).LeavesOpen := by
  have hfront : ∀ u, u <+: prolog.source →
      (readFrom [] u).events.filterMap Event.tag? = [] ∨ (readFrom [] u).LeavesOpen := by
    intro u hu
    cases prolog.isCutOrFault_of_isPrefix hu with
    | inl hcut =>
      obtain ⟨tags, n, hcut⟩ := hcut
      have hnone : tags = [] := List.prefix_nil.1 (hprolog ▸ hcut.tags_isPrefix)
      exact .inl (by rw [hcut.filterMap_tag?, hnone, List.map_nil])
    | inr hfault => exact .inr fun hnone => absurd hnone (hfault [])
  rw [Forest.rooted, Forest.source_append] at hu hne
  obtain hbefore | ⟨v, rfl, hv⟩ := prefix_append_cases hu
  · exact hfront u hbefore
  · have hvne : v ≠ (Forest.element tag content gap .nil).source := fun h => hne (by rw [h])
    cases Forest.leavesOpen_of_prefix_element [] hv hvne with
    | inl hnil =>
      rw [hnil, List.append_nil]
      exact hfront _ List.prefix_rfl
    | inr hopen =>
      rw [Forest.readFrom_source]
      exact .inr (hopen.precede prolog)

/-- Wherever a document of one element breaks off before its end, it gives no documentation
entry and is no project file.  As a solution it is read if and only if the cut is
between parts or in character data, and then it lists the projects in front of the
cut, which are the first ones of the whole. -/
theorem projectsOfXml_of_isPrefix (dir : Path) (prolog : Forest) (tag : WrittenTag) (content : Forest)
    (gap : Gap) (hprolog : prolog.tags = []) {u : List Char}
    (hu : u <+: (prolog.rooted tag content gap).source)
    (hne : u ≠ (prolog.rooted tag content gap).source) :
    entryOfMarkup (.ofList u) = none ∧
    (∀ reference toolchain, ∃ fault, Project.ofText reference toolchain (.ofList u) =
      .error fault) ∧
    (∀ projects, projectsOfXml dir (.ofList u) = .ok projects ↔
      ∃ tags n, (prolog.rooted tag content gap).IsCut u tags n ∧
        projects = (tags.filterMap WrittenTag.projectPath?).filterMap (projectAt? dir)) ∧
    ∀ projects, projectsOfXml dir (.ofList u) = .ok projects →
      ∃ others, projectsOfXml dir (.ofList (prolog.rooted tag content gap).source) =
        .ok (projects ++ others) := by
  refine ⟨?_, fun reference toolchain => ?_, fun projects => projectsOfXml_eq_ok_iff hu,
    fun projects hok => ?_⟩
  · cases untagged_or_leavesOpen hprolog hu hne with
    | inl huntagged => exact entryOfMarkup_of_untagged huntagged
    | inr hopen => exact entryOfMarkup_of_leavesOpen (leavesOpen_ofText hopen)
  · cases untagged_or_leavesOpen hprolog hu hne with
    | inl huntagged => exact exists_error_ofText_of_untagged reference toolchain huntagged
    | inr hopen =>
      exact exists_error_ofText_of_leavesOpen reference toolchain hopen fun hfault =>
        Forest.exists_openAfter_of_isPrefix _ hu hfault 0
  · obtain ⟨tags, n, hcut, rfl⟩ := (projectsOfXml_eq_ok_iff hu).1 hok
    exact exists_projectsOfXml_of_isCut hcut

/-- A declaration. -/
def declaration : Forest := .aside (.instruction "xml version='1.0'".toList (by decide)) .nil

def solutionTag : WrittenTag := ⟨.ofText "Solution", [], .none⟩

/-- An element of the project in the given directory. -/
def projectIn (directory : Char) (next : Forest) : Forest :=
  .empty (projectTag (directory :: "/App.csproj".toList)) next

/-- A solution of two projects. -/
def twoProjects : Forest :=
  declaration.rooted solutionTag (projectIn 'A' (projectIn 'B' .nil)) .none

/-- The front of the solution up to a place in its element. -/
def solutionFront (inside : List Char) : List Char :=
  declaration.source ++ '<' :: (solutionTag.content ++ ['>'] ++ inside)

/-- A solution that is cut in the tag of its second project. -/
def cutInTag : List Char := solutionFront ((projectIn 'A' .nil).source ++ "<Project P".toList)

theorem projectsOfXml_of_isPrefix_cutInTag :
    (declaration.tags = [] ∧ cutInTag <+: twoProjects.source ∧ cutInTag ≠ twoProjects.source) ∧
      entryOfMarkup (.ofList cutInTag) = none ∧
      (∀ reference toolchain, ∃ fault, Project.ofText reference toolchain (.ofList cutInTag) =
        .error fault) ∧
      ∀ projects, projectsOfXml ⟨"/repo"⟩ (.ofList cutInTag) = .ok projects ↔
        ∃ tags n, twoProjects.IsCut cutInTag tags n ∧
          projects = (tags.filterMap WrittenTag.projectPath?).filterMap (projectAt? ⟨"/repo"⟩) := by
  have hu : cutInTag <+: twoProjects.source := by decide +kernel
  have hne : cutInTag ≠ twoProjects.source := by decide +kernel
  obtain ⟨hentry, hfile, hlists, -⟩ :=
    projectsOfXml_of_isPrefix ⟨"/repo"⟩ declaration solutionTag (projectIn 'A' (projectIn 'B' .nil)) .none
      rfl hu hne
  exact ⟨⟨rfl, hu, hne⟩, hentry, hfile, hlists⟩

/-- A solution that is cut behind its first project. -/
def cutBetween : List Char := solutionFront (projectIn 'A' .nil).source

/-- It is read, and lists that project alone. -/
theorem projectsOfXml_of_isPrefix_cutBetween :
    String.ofList cutBetween = "<?xml version='1.0'?><Solution><Project Path=\"A/App.csproj\"/>" ∧
    cutBetween <+: twoProjects.source ∧ cutBetween ≠ twoProjects.source ∧
    projectsOfXml ⟨"/repo"⟩ (.ofList cutBetween) = .ok [⟨"App", ⟨"/repo/A/App.csproj"⟩⟩] ∧
    projectsOfXml ⟨"/repo"⟩ (.ofList twoProjects.source) =
      .ok [⟨"App", ⟨"/repo/A/App.csproj"⟩⟩, ⟨"App", ⟨"/repo/B/App.csproj"⟩⟩] := by
  have hcut : twoProjects.IsCut cutBetween [solutionTag, projectTag "A/App.csproj".toList] 1 :=
    .behind declaration (.inside solutionTag .none .nil
      (.behind (projectIn 'A' .nil) (.before (projectIn 'B' .nil))))
  refine ⟨by cbv, by decide +kernel, by decide +kernel, ?_, ?_⟩
  · rw [projectsOfXml_of_isCut hcut, Except.ok.injEq]
    decide +kernel
  · rw [projectsOfXml_source, Except.ok.injEq]
    decide +kernel

end ResourceAudit
