import ResourceAudit.Proofs.Distinct
import ResourceAudit.Proofs.Documentation.RoundTrip
import ResourceAudit.Proofs.FileTree.Places
import ResourceAudit.Proofs.Solution.Lines

/-!
# ResourceAudit.Proofs.Solution.Records

Solutions written from records.  A record gives the line of a project its name of
its own, and the line may have white space around every mark; other lines stand in
between, and each line has its own end.  Loading such a file gives the C# projects
of the records in their order, under the names that are written, each path once
(`Solution.load_recordsText`).  Paths are one if they have the same components,
however they are spelled.
-/

namespace ResourceAudit

open ResourceAudit.Text
open Documentation (Padding)

/-! ## records -/

/-- A text on one line that stands between curly braces. -/
structure BracedText where
  chars : List Char
  brace_not_mem : '\x7d' ∉ chars
  lineFeed_not_mem : '\n' ∉ chars

/-- A text on one line that stands between double quotes. -/
structure QuotedText where
  chars : List Char
  quote_not_mem : '"' ∉ chars
  lineFeed_not_mem : '\n' ∉ chars

/-- What the line of a project says. -/
structure ProjectRecord where
  kind : BracedText
  name : QuotedText
  path : ListedPath
  id : BracedText

/-- The project that a record stands for in a solution in the given directory. -/
def ProjectRecord.reference (r : ProjectRecord) (dir : Path) : ProjectReference :=
  ⟨.ofList r.name.chars, r.path.below dir⟩

/-- The C# projects among those of the given records. -/
def csharpReferences (dir : Path) (rs : List ProjectRecord) : List ProjectReference :=
  (rs.filter (·.path.IsCSharp)).map (·.reference dir)

/-! ## written records -/

/-- The white space in the line of a project: at its ends, around its equals sign and
around its two commas. -/
structure LineSpacing where
  front : Padding
  beforeEquals : Padding
  afterEquals : Padding
  beforeFirstComma : Padding
  afterFirstComma : Padding
  beforeLastComma : Padding
  afterLastComma : Padding
  back : Padding

/-- The line of a project up to its last quote. -/
def ProjectRecord.text (r : ProjectRecord) (s : LineSpacing) : List Char :=
  [s.front.chars, "Project(\"\x7b".toList, r.kind.chars, "\x7d\")".toList,
    s.beforeEquals.chars, "=".toList, s.afterEquals.chars,
    "\"".toList, r.name.chars, "\"".toList,
    s.beforeFirstComma.chars, ",".toList, s.afterFirstComma.chars,
    "\"".toList, r.path.chars, "\"".toList,
    s.beforeLastComma.chars, ",".toList, s.afterLastComma.chars,
    "\"\x7b".toList, r.id.chars, "\x7d\"".toList].flatten

/-- A line of a solution that is written from records. -/
inductive RecordLine where
  | record (r : ProjectRecord) (spacing : LineSpacing)
  /-- Any line that does not begin like that of a project. -/
  | other (text : List Char) (h : '\n' ∉ text ∧ ¬ projectOpening <+: trimStart text)

namespace RecordLine

/-- The text of a line. -/
def text : RecordLine → List Char
  | .record r spacing => r.text spacing ++ spacing.back.chars
  | .other text _ => text

/-- The record that a line is written from. -/
def record? : RecordLine → Option ProjectRecord
  | .record r _ => some r
  | .other .. => none

end RecordLine

/-- A line with what ends it. -/
structure EndedLine where
  line : RecordLine
  ending : LineEnd

/-- The text of a file of lines. -/
def recordsText (ls : List EndedLine) : List Char :=
  ls.flatMap fun l => l.line.text ++ l.ending.chars

/-- The records that lines are written from, in their order. -/
def recordsOf (ls : List EndedLine) : List ProjectRecord := ls.filterMap (·.line.record?)

/-! ## reading -/

section Reading

variable {dir : Path}

theorem ProjectRecord.projectLine?_text (r : ProjectRecord) (s : LineSpacing) (rest : List Char) :
    projectLine? (r.text s ++ rest) = some (r.name.chars, r.path.chars) := by
  refine projectLine?_spaced r.kind.brace_not_mem r.id.brace_not_mem r.name.quote_not_mem
    r.path.quote_not_mem (fun g hg => ?_) rest
  simp only [List.mem_cons, List.not_mem_nil, or_false] at hg
  rcases hg with rfl | rfl | rfl | rfl | rfl | rfl | rfl <;> exact Padding.isBlankText_chars _

theorem ProjectRecord.lineFeed_not_mem_text (r : ProjectRecord) (s : LineSpacing) :
    '\n' ∉ r.text s := by
  rw [ProjectRecord.text, List.mem_flatten]
  push Not
  simp only [List.forall_mem_cons]
  exact ⟨s.front.lineFeed_not_mem, by decide, r.kind.lineFeed_not_mem, by decide,
    s.beforeEquals.lineFeed_not_mem, by decide, s.afterEquals.lineFeed_not_mem, by decide,
    r.name.lineFeed_not_mem, by decide, s.beforeFirstComma.lineFeed_not_mem, by decide,
    s.afterFirstComma.lineFeed_not_mem, by decide, r.path.lineFeed_not_mem, by decide,
    s.beforeLastComma.lineFeed_not_mem, by decide, s.afterLastComma.lineFeed_not_mem, by decide,
    r.id.lineFeed_not_mem, by decide, List.forall_mem_nil _⟩

theorem ProjectRecord.getLast?_text (r : ProjectRecord) (s : LineSpacing) :
    (r.text s).getLast? = some '"' := by
  simp [ProjectRecord.text, List.getLast?_cons, List.getLast?_append]

/-- A text that does not end in white space is kept when white space is cut off
behind it. -/
theorem exists_append_of_append_blank {s t line b : List Char} {c : Char}
    (hlast : s.getLast? = some c) (hc : isBlank c = false) (hb : isBlankText b = true)
    (h : s ++ t = line ++ b) : ∃ rest, line = s ++ rest := by
  rcases List.append_eq_append_iff.1 h with ⟨rest, hline, -⟩ | ⟨rest, hs, hrest⟩
  · exact ⟨rest, hline⟩
  · cases rest with
    | nil => exact ⟨[], by simpa using hs.symm⟩
    | cons d ds =>
      have hmem : c ∈ b := by
        rw [hs, List.getLast?_append_of_ne_nil _ (List.cons_ne_nil d ds)] at hlast
        rw [hrest]
        exact List.mem_append_left t (List.mem_of_getLast? hlast)
      rw [isBlankText_iff.1 hb c hmem] at hc
      cases hc

/-- The line of a record gives its project if that is a C# project. -/
theorem projectsOfText_record (r : ProjectRecord) (s : LineSpacing) (e : LineEnd) :
    projectsOfText dir (.ofList ((RecordLine.record r s).text ++ e.chars)) =
      csharpReferences dir [r] := by
  have hfeed : '\n' ∉ (RecordLine.record r s).text := by
    rw [RecordLine.text, List.mem_append, not_or]
    exact ⟨r.lineFeed_not_mem_text s, s.back.lineFeed_not_mem⟩
  obtain ⟨line, b, hb, htext, hlines⟩ := exists_lines_lineEnd hfeed e []
  obtain ⟨rest, rfl⟩ := exists_append_of_append_blank (r.getLast?_text s) (by decide) hb htext
  rw [List.append_nil] at hlines
  rw [projectsOfText, String.toList_ofList, hlines, lines,
    List.filterMap_cons_some (r.projectLine?_text s rest), List.filterMap_nil, csharpReferences]
  by_cases hcsharp : r.path.IsCSharp
  · simp [isProjectPath_eq, hcsharp, ProjectRecord.reference, projectPath_eq]
  · simp [isProjectPath_eq, hcsharp]

theorem csharpReferences_append (dir : Path) (rs ss : List ProjectRecord) :
    csharpReferences dir (rs ++ ss) = csharpReferences dir rs ++ csharpReferences dir ss := by
  rw [csharpReferences, List.filter_append, List.map_append]
  rfl

/-- What is read of a file of lines are the C# projects of its records. -/
theorem projectsOfText_recordsText (dir : Path) (ls : List EndedLine) :
    projectsOfText dir (.ofList (recordsText ls)) = csharpReferences dir (recordsOf ls) := by
  induction ls with
  | nil => rfl
  | cons l ls ih =>
    have hrecords : recordsOf (l :: ls) = l.line.record?.toList ++ recordsOf ls := by
      cases hr : l.line.record? <;> simp [recordsOf, hr]
    have hline : projectsOfText dir (.ofList (l.line.text ++ l.ending.chars)) =
        csharpReferences dir l.line.record?.toList := by
      cases l.line with
      | record r spacing => exact projectsOfText_record r spacing l.ending
      | other text h => exact projectsOfText_other h.1 h.2
    rw [recordsText, List.flatMap_cons, projectsOfText_lineEnd, ← recordsText, ih, hline, hrecords,
      csharpReferences_append]

end Reading

/-! ## loading -/

/-- The projects that are left are the first ones of their paths, without those that
have been seen. -/
theorem distinctProjects_eq (seen : List Path) (projects : List ProjectReference) :
    distinctProjects seen projects =
      (distinctBy (·.path.components) projects).filter fun project =>
        project.path.components ∉ seen.map Path.components := by
  induction projects generalizing seen with
  | nil => rfl
  | cons project rest ih =>
    have hseen : seen.any project.path.same = true ↔
        project.path.components ∈ seen.map Path.components := by
      rw [List.any_eq_true, List.mem_map]
      exact exists_congr fun other => and_congr_right fun _ => by
        rw [Path.same, beq_iff_eq, eq_comm]
    rw [distinctProjects, distinctBy, List.filter_cons, List.filter_filter]
    by_cases hmem : project.path.components ∈ seen.map Path.components
    · rw [if_pos (hseen.2 hmem), if_neg (by simpa using hmem), ih]
      refine List.filter_congr fun other _ => ?_
      by_cases hother : other.path.components = project.path.components
      · rw [hother, decide_eq_false (not_not_intro hmem), Bool.false_and]
      · rw [decide_eq_true hother, Bool.and_true]
    · rw [if_neg (fun h => hmem (hseen.1 h)), if_pos (by simpa using hmem), ih]
      refine congrArg _ (List.filter_congr fun other _ => ?_)
      simp [Bool.and_comm]

theorem FileTree.isFile_of_read {t : FileTree} {p : Path} {text : String}
    (h : t.read p = .ok text) : t.isFile p = true := by
  rw [FileTree.read] at h
  split at h
  · cases h
  · next hresolve => simp [FileTree.isFile, FileTree.node?, hresolve, Except.toOption, Node.isFile]
  · cases h
  · cases h

/-- A solution that is written from records is loaded as the C# projects among them, in
the order of the file and without those whose path one before them has. -/
theorem Solution.load_recordsText {t : FileTree} {p : Path} {ls : List EndedLine}
    (hread : t.read p = .ok (.ofList (recordsText ls))) (hxml : isXmlSolution p = false)
    (hheader : ∃ l ∈ ls, solutionHeader.toList <:+: l.line.text) :
    Solution.load t p =
      .ok ⟨p, distinctBy (·.path.components) (csharpReferences p.directory (recordsOf ls))⟩ := by
  have hholds : holds solutionHeader.toList (String.ofList (recordsText ls)).toList = true := by
    obtain ⟨l, hl, hinfix⟩ := hheader
    rw [String.toList_ofList, holds_iff, recordsText, List.flatMap_def]
    refine hinfix.trans ((List.prefix_append _ l.ending.chars).isInfix.trans ?_)
    exact List.infix_of_mem_flatten (List.mem_map_of_mem hl)
  have hdistinct : ∀ projects, distinctProjects [] projects =
      distinctBy (·.path.components) projects := fun projects => by
    simp [distinctProjects_eq]
  rw [Solution.load_of_text (FileTree.isFile_of_read hread) hread hxml hholds,
    projectsOfText_recordsText, hdistinct]

/-- White space of the given characters. -/
def spaceOf (s : List Char) (h : isBlankText s = true ∧ '\n' ∉ s) : Padding := ⟨s, h.1, h.2⟩

def noSpace : Padding := spaceOf [] (by decide)

def someSpace : Padding := spaceOf [' ', '\t', '\u00A0'] (by decide)

/-- A project that is listed twice, the second time in another spelling, and another
one that is not written in C#. -/
def respelledLines : List EndedLine :=
  let space : LineSpacing := ⟨noSpace, noSpace, someSpace, noSpace, noSpace, someSpace, noSpace,
    noSpace⟩
  let more : LineSpacing := ⟨someSpace, someSpace, noSpace, someSpace, someSpace, noSpace,
    someSpace, someSpace⟩
  let kind : BracedText := ⟨"FAE04EC0-\"301F\"".toList, by decide, by decide⟩
  let id : BracedText := ⟨"1".toList, by decide, by decide⟩
  let name (s : String) (h : '"' ∉ s.toList ∧ '\n' ∉ s.toList) : QuotedText := ⟨s.toList, h.1, h.2⟩
  let path (s : String) (h : '"' ∉ s.toList ∧ '\n' ∉ s.toList) : ListedPath := ⟨s.toList, h.1, h.2⟩
  [⟨.other "\uFEFFMicrosoft Visual Studio Solution File, Format Version 12.00".toList (by decide),
      .carriageReturn⟩,
    ⟨.record ⟨kind, name "App, = \x7b1\x7d" (by decide), path "src\\App.CsProj" (by decide), id⟩
      space, .carriageReturn⟩,
    ⟨.other "\tEndProject".toList (by decide), .lineFeed⟩,
    ⟨.record ⟨kind, name "Tool" (by decide), path "Tool.fsproj" (by decide), id⟩ more, .lineFeed⟩,
    ⟨.record ⟨kind, name "Again" (by decide), path "src/./App.CsProj" (by decide), id⟩ more,
      .lineFeed⟩]

/-- A tree with one solution in it. -/
def solutionTree (text : String) : FileTree := ⟨.dir [("App.sln", .file text.toUTF8)], []⟩

theorem load_recordsText_respelled :
    (solutionTree (.ofList (recordsText respelledLines))).read ⟨"/App.sln"⟩ =
        .ok (.ofList (recordsText respelledLines)) ∧
      isXmlSolution ⟨"/App.sln"⟩ = false ∧
      (∃ l ∈ respelledLines, solutionHeader.toList <:+: l.line.text) ∧
      Solution.load (solutionTree (.ofList (recordsText respelledLines))) ⟨"/App.sln"⟩ =
        .ok ⟨⟨"/App.sln"⟩, [⟨"App, = \x7b1\x7d", ⟨"/src/App.CsProj"⟩⟩]⟩ := by
  have hname : ∀ name ∈ ["App.sln"], IsFileName name := by decide
  have hread (text : String) : (solutionTree text).read ⟨"/App.sln"⟩ = .ok text := by
    have hlinks : (solutionTree text).LinkFree := ⟨trivial, trivial, trivial⟩
    exact FileTree.read_toPath hlinks rfl hname rfl
  have hxml : isXmlSolution ⟨"/App.sln"⟩ = false := by decide +kernel
  have hheader : ∃ l ∈ respelledLines, solutionHeader.toList <:+: l.line.text :=
    ⟨_, List.mem_cons_self, by decide +kernel⟩
  have hprojects : distinctBy (·.path.components)
      (csharpReferences (Path.directory ⟨"/App.sln"⟩) (recordsOf respelledLines)) =
        [⟨"App, = \x7b1\x7d", ⟨"/src/App.CsProj"⟩⟩] := by decide +kernel
  refine ⟨hread _, hxml, hheader, ?_⟩
  rw [Solution.load_recordsText (hread _) hxml hheader, hprojects]

end ResourceAudit
