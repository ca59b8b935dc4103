import ResourceAudit.Proofs.FileTree.Spelling
import ResourceAudit.Proofs.Text.Cut
import ResourceAudit.Proofs.Text.Lines
import ResourceAudit.Solution

/-!
# ResourceAudit.Proofs.Solution.Lines

A solution written as lines, and how it is read back.  A line gives a project
under the stem of its path, between other lines of any text; the reader finds the
C# projects among them in the order of the lines (`projectsOfText_solutionText`).
A stem may hold a line feed where it is the name of the directory, which breaks
the line in two.  Neither part is then read as a project, since one takes eight
double quotes (`count_of_projectLine?`).
-/

namespace ResourceAudit

open ResourceAudit.Text

/-! ## listed projects -/

/-- A path that a solution can list. -/
structure ListedPath where
  chars : List Char
  quote_not_mem : '"' ∉ chars
  lineFeed_not_mem : '\n' ∉ chars

/-- A character, a slash in place of a backslash. -/
def slash (c : Char) : Char := if c = '\\' then '/' else c

namespace ListedPath

/-- Being the path of a C# project, in letters of either case. -/
def IsCSharp (p : ListedPath) : Prop := ".csproj".toList <:+ p.chars.map Char.toLower

instance (p : ListedPath) : Decidable p.IsCSharp := inferInstanceAs (Decidable (_ <:+ _))

/-- The path from a directory on, with its backslashes turned to slashes. -/
def below (p : ListedPath) (dir : Path) : Path := dir.join (.ofList (p.chars.map slash))

/-- The file stem of the path from a directory on. -/
def stem (p : ListedPath) (dir : Path) : String := (p.below dir).stem.getD ""

/-- The project that the path is read as. -/
def reference (p : ListedPath) (dir : Path) : ProjectReference := ⟨p.stem dir, p.below dir⟩

end ListedPath

/-- The C# projects among those at the given paths. -/
def csharpProjects (dir : Path) (paths : List ListedPath) : List ProjectReference :=
  (paths.filter (·.IsCSharp)).map (·.reference dir)

/-! ## written lines -/

/-- An identifier as it stands between curly braces. -/
structure Guid where
  chars : List Char
  isAlphanum_or_hyphen : ∀ c ∈ chars, (c.isAlphanum || c == '-') = true

theorem Guid.not_mem (g : Guid) {c : Char} (hc : (c.isAlphanum || c == '-') = false) :
    c ∉ g.chars :=
  fun h => Bool.noConfusion (hc.symm.trans (g.isAlphanum_or_hyphen c h))

/-- What the line of a project begins with. -/
def projectOpening : List Char := "Project(\"\x7b".toList

/-- A line of a solution. -/
inductive SolutionLine where
  | project (kind : Guid) (path : ListedPath) (id : Guid)
  /-- Any line that does not begin like that of a project. -/
  | other (text : List Char) (h : '\n' ∉ text ∧ ¬ projectOpening <+: trimStart text)

namespace SolutionLine

/-- The text of a line. -/
def text (dir : Path) : SolutionLine → List Char
  | .project kind path id =>
    "Project(\"\x7b".toList ++ kind.chars ++ "\x7d\") = \"".toList ++ (path.stem dir).toList ++
      "\", \"".toList ++ path.chars ++ "\", \"\x7b".toList ++ id.chars ++ "\x7d\"".toList
  | .other text _ => text

/-- The path that a line lists. -/
def path? : SolutionLine → Option ListedPath
  | .project _ path _ => some path
  | .other .. => none

end SolutionLine

/-- The paths that lines list, in their order. -/
def pathsOfLines (ls : List SolutionLine) : List ListedPath := ls.filterMap SolutionLine.path?

/-- The text of a solution that is made up of lines. -/
def solutionText (dir : Path) (e : LineEnd) (ls : List SolutionLine) : List Char :=
  ls.flatMap fun l => l.text dir ++ e.chars

/-! ## stems -/

section Stems

theorem mem_of_mem_divideName {name : List Char} {c : Char} (h : c ∈ (divideName name).1) :
    c ∈ name := by
  rw [divideName] at h
  split at h
  · exact h
  · exact List.mem_of_mem_take h

/-- The file name of a path is its last piece, if that makes a name. -/
theorem Path.fileName_of_fields {p : Path} {front : List (List Char)} {last : List Char}
    (h : fields (· == '/') p.text.toList = front ++ [last]) (hlast : 2 < last.length) :
    p.fileName = some (.ofList last) := by
  have hvoid : isVoid last = false := by
    rw [isVoid, Bool.or_eq_false_iff, beq_eq_false_iff_ne, beq_eq_false_iff_ne]
    constructor <;> rintro rfl <;> simp at hlast
  have hup : (last == ['.', '.']) = false := by
    rw [beq_eq_false_iff_ne]
    rintro rfl
    simp at hlast
  have hfilter := p.filter_fields
  rw [h, List.filter_append, List.filter_singleton, hvoid, Bool.not_false, cond_true] at hfilter
  rw [fileName, components, Pieces.components, ← hfilter, List.map_append, ← List.append_assoc,
    List.map_singleton, List.getLast?_concat, componentOf, hup]
  rfl

/-- The pieces of a path below a directory end with those of what it is there. -/
theorem Path.exists_fields_join (dir : Path) (s : List Char) :
    ∃ front, fields (· == '/') (dir.join (.ofList s)).text.toList =
      front ++ fields (· == '/') s := by
  rw [join]
  split
  · exact ⟨[], by simp⟩
  · exact ⟨[], by simp⟩
  · next hlast _ =>
    obtain ⟨front, hfront⟩ := List.getLast?_eq_some_iff.1 hlast
    refine ⟨fields (· == '/') front, ?_⟩
    rw [String.toList_append, hfront, String.toList_ofList, List.append_assoc,
      List.singleton_append, fields_append_sep]
  · refine ⟨fields (· == '/') dir.text.toList, ?_⟩
    simp only [String.toList_append, String.toList_ofList, List.append_assoc]
    exact fields_append_sep _ s

theorem slash_not_mem_map {e : List Char} (h : e.map Char.toLower = ".csproj".toList) :
    '/' ∉ e.map slash := by
  intro hmem
  obtain ⟨d, hd, hslash⟩ := List.mem_map.1 hmem
  have hlower : d.toLower ∈ ".csproj".toList := h ▸ List.mem_map_of_mem hd
  rw [slash] at hslash
  split at hslash
  · next hback => exact absurd (hback ▸ hlower) (by decide)
  · exact absurd (hslash ▸ hlower) (by decide)

/-- The file name of a C# project is a part of its path. -/
theorem ListedPath.exists_fileName {p : ListedPath} (h : p.IsCSharp) (dir : Path) :
    ∃ name, (p.below dir).fileName = some (.ofList name) ∧ ∀ c ∈ name, c ∈ p.chars.map slash := by
  obtain ⟨front, hfront⟩ := h
  obtain ⟨a, e, hchars, -, he⟩ := List.map_eq_append_iff.1 hfront.symm
  have hlength : e.length = 7 := by simpa using congrArg List.length he
  -- the extension holds no slash, so it is in the last piece of the path
  obtain ⟨first, last, hlast⟩ := exists_fields_append (a.map slash) (slash_not_mem_map he)
  rw [← List.map_append, ← hchars] at hlast
  obtain ⟨outer, houter⟩ := dir.exists_fields_join (p.chars.map slash)
  rw [hlast, ← List.append_assoc] at houter
  refine ⟨last ++ e.map slash, Path.fileName_of_fields houter (by simp [hlength]), fun c hc => ?_⟩
  have hpiece : last ++ e.map slash ∈ fields (· == '/') (p.chars.map slash) := by
    rw [hlast]
    exact List.mem_append_right first (List.mem_singleton_self _)
  exact mem_of_mem_fields hpiece hc

/-- The stem of a C# project is a part of its path. -/
theorem ListedPath.mem_of_mem_stem {p : ListedPath} {dir : Path} (h : p.IsCSharp) {c : Char}
    (hc : c ∈ (p.stem dir).toList) : c ∈ p.chars ∨ c = '/' := by
  obtain ⟨name, hname, hmem⟩ := p.exists_fileName h dir
  rw [stem, Path.stem, hname, Option.map_some, Option.getD_some, String.toList_ofList,
    String.toList_ofList] at hc
  obtain ⟨d, hd, rfl⟩ := List.mem_map.1 (hmem c (mem_of_mem_divideName hc))
  rw [slash]
  split
  · exact .inr rfl
  · exact .inl hd

end Stems

/-! ## reading a line -/

section Reading

theorem afterSpaced_append {pattern : String} {c : Char} (hc : pattern.toList.head? = some c)
    (hblank : isBlank c = false) {g : List Char} (hg : isBlankText g = true) (t : List Char) :
    afterSpaced pattern (g ++ (pattern.toList ++ t)) = some t := by
  obtain ⟨rest, hrest⟩ := List.head?_eq_some_iff.1 hc
  have htrim : trimStart (pattern.toList ++ t) = pattern.toList ++ t := by
    rw [hrest]
    exact List.dropWhile_cons_of_neg (by simp [hblank])
  have hlead : pattern.toList.isPrefixOf (pattern.toList ++ t) = true :=
    List.isPrefixOf_iff_prefix.2 (List.prefix_append _ t)
  rw [afterSpaced, trimStart_append_of_blank hg, htrim, afterPattern, if_pos hlead, List.drop_left]

theorem takeQuoted_append {g s : List Char} (hg : isBlankText g = true) (h : '"' ∉ s)
    (t : List Char) : takeQuoted (g ++ '"' :: (s ++ '"' :: t)) = some (s, t) := by
  have hopen : afterSpaced "\"" (g ++ '"' :: (s ++ '"' :: t)) = some (s ++ '"' :: t) :=
    afterSpaced_append (c := '"') rfl (by decide) hg _
  rw [takeQuoted, hopen]
  exact cutAt_singleton h t

/-- A line is read as the name and the path that are written in it, with any white
space around its marks and anything behind its last quote. -/
theorem projectLine?_spaced {kind id name path : List Char} (hkind : '\x7d' ∉ kind)
    (hid : '\x7d' ∉ id) (hname : '"' ∉ name) (hpath : '"' ∉ path)
    {g₀ g₁ g₂ g₃ g₄ g₅ g₆ : List Char}
    (hg : ∀ g ∈ [g₀, g₁, g₂, g₃, g₄, g₅, g₆], isBlankText g = true) (rest : List Char) :
    projectLine? ([g₀, "Project(\"\x7b".toList, kind, "\x7d\")".toList, g₁, "=".toList, g₂,
      "\"".toList, name, "\"".toList, g₃, ",".toList, g₄, "\"".toList, path, "\"".toList, g₅,
      ",".toList, g₆, "\"\x7b".toList, id, "\x7d\"".toList].flatten ++ rest) =
      some (name, path) := by
  simp only [List.forall_mem_cons] at hg
  obtain ⟨h₀, h₁, h₂, h₃, h₄, h₅, h₆, -⟩ := hg
  -- what stands behind the kind, the name and the path
  let t : List Char :=
    g₅ ++ (",".toList ++ (g₆ ++ ("\"\x7b".toList ++ (id ++ '\x7d' :: '"' :: rest))))
  let u : List Char := g₃ ++ (",".toList ++ (g₄ ++ '"' :: (path ++ '"' :: t)))
  let v : List Char := g₁ ++ ("=".toList ++ (g₂ ++ '"' :: (name ++ '"' :: u)))
  have htext : [g₀, "Project(\"\x7b".toList, kind, "\x7d\")".toList, g₁, "=".toList, g₂,
      "\"".toList, name, "\"".toList, g₃, ",".toList, g₄, "\"".toList, path, "\"".toList, g₅,
      ",".toList, g₆, "\"\x7b".toList, id, "\x7d\"".toList].flatten ++ rest =
      g₀ ++ ("Project(\"\x7b".toList ++ (kind ++ '\x7d' :: ("\")".toList ++ v))) := by
    simp [t, u, v]
  have hopening : afterSpaced "Project(\"\x7b" (g₀ ++ ("Project(\"\x7b".toList ++
      (kind ++ '\x7d' :: ("\")".toList ++ v)))) = some (kind ++ '\x7d' :: ("\")".toList ++ v)) :=
    afterSpaced_append (c := 'P') rfl (by decide) h₀ _
  have hend : afterPattern "\")".toList ("\")".toList ++ v) = some v := by
    rw [afterPattern, if_pos (List.isPrefixOf_iff_prefix.2 (List.prefix_append _ v)),
      List.drop_left]
  have hequals : afterSpaced "=" v = some (g₂ ++ '"' :: (name ++ '"' :: u)) :=
    afterSpaced_append (c := '=') rfl (by decide) h₁ _
  have hcomma : afterSpaced "," u = some (g₄ ++ '"' :: (path ++ '"' :: t)) :=
    afterSpaced_append (c := ',') rfl (by decide) h₃ _
  have hcomma' : afterSpaced "," t =
      some (g₆ ++ ("\"\x7b".toList ++ (id ++ '\x7d' :: '"' :: rest))) :=
    afterSpaced_append (c := ',') rfl (by decide) h₅ _
  have hbrace : afterSpaced "\"\x7b" (g₆ ++ ("\"\x7b".toList ++ (id ++ '\x7d' :: '"' :: rest))) =
      some (id ++ '\x7d' :: '"' :: rest) := afterSpaced_append (c := '"') rfl (by decide) h₆ _
  rw [htext, projectLine?, hopening]
  simp only [Option.bind_eq_bind, Option.bind_some, cutAt_singleton hkind, hend, hequals,
    takeQuoted_append h₂ hname, hcomma, takeQuoted_append h₄ hpath, hcomma', hbrace,
    cutAt_singleton hid]
  rfl

/-- A line is read as the name and the path that are written in it. -/
theorem projectLine?_text {kind id name path : List Char} (hkind : '\x7d' ∉ kind) (hid : '\x7d' ∉ id)
    (hname : '"' ∉ name) (hpath : '"' ∉ path) :
    projectLine? ("Project(\"\x7b".toList ++ kind ++ "\x7d\") = \"".toList ++ name ++
      "\", \"".toList ++ path ++ "\", \"\x7b".toList ++ id ++ "\x7d\"".toList) =
      some (name, path) := by
  have hg : ∀ g ∈ [[], [' '], [' '], [], [' '], [], [' ']], isBlankText g = true := by decide
  have hread := projectLine?_spaced hkind hid hname hpath hg []
  simpa using hread

theorem afterPattern_eq_append {pattern s t : List Char} (h : afterPattern pattern s = some t) :
    s = pattern ++ t := by
  rw [afterPattern, Option.ite_none_right_eq_some, Option.some.injEq] at h
  obtain ⟨hlead, rfl⟩ := h
  obtain ⟨u, rfl⟩ := List.isPrefixOf_iff_prefix.1 hlead
  rw [List.drop_left]

theorem count_afterSpaced {pattern : String} {s t : List Char}
    (h : afterSpaced pattern s = some t) :
    pattern.toList.count '"' + t.count '"' ≤ s.count '"' := by
  rw [← List.count_append, ← afterPattern_eq_append h]
  exact (List.dropWhile_sublist isBlank).count_le _

theorem count_cutAt {pattern s before after : List Char}
    (h : cutAt pattern s = some (before, after)) :
    pattern.count '"' + after.count '"' ≤ s.count '"' := by
  rw [cutAt_eq_append h, List.count_append, List.count_append]
  omega

theorem count_takeQuoted {s inside after : List Char} (h : takeQuoted s = some (inside, after)) :
    2 + after.count '"' ≤ s.count '"' := by
  obtain ⟨t, hopen, hclose⟩ := Option.bind_eq_some_iff.1 h
  have hopen : 1 + t.count '"' ≤ s.count '"' := count_afterSpaced hopen
  have hclose : 1 + after.count '"' ≤ t.count '"' := count_cutAt hclose
  omega

/-- A line that is read as a project holds eight double quotes. -/
theorem count_of_projectLine? {line : List Char} {found : List Char × List Char}
    (h : projectLine? line = some found) : 8 ≤ line.count '"' := by
  simp only [projectLine?, Option.bind_eq_bind, Option.bind_eq_some_iff, Prod.exists] at h
  obtain ⟨s₁, h₁, kind, s₂, h₂, s₃, h₃, s₄, h₄, name, s₅, h₅, s₆, h₆, path, s₇, h₇, s₈, h₈, s₉, h₉,
    id, s₁₀, h₁₀, _, h₁₁, -⟩ := h
  have hopening : 1 + s₁.count '"' ≤ line.count '"' := count_afterSpaced h₁
  have hkind : s₂.count '"' ≤ s₁.count '"' := by simpa using count_cutAt h₂
  have hclosed : s₂.count '"' = 1 + s₃.count '"' := by
    rw [afterPattern_eq_append h₃, List.count_append]
    rfl
  have hequals : s₄.count '"' ≤ s₃.count '"' := by simpa using count_afterSpaced h₄
  have hname : 2 + s₅.count '"' ≤ s₄.count '"' := count_takeQuoted h₅
  have hcomma : s₆.count '"' ≤ s₅.count '"' := by simpa using count_afterSpaced h₆
  have hpath : 2 + s₇.count '"' ≤ s₆.count '"' := count_takeQuoted h₇
  have hcomma' : s₈.count '"' ≤ s₇.count '"' := by simpa using count_afterSpaced h₈
  have hbrace : 1 + s₉.count '"' ≤ s₈.count '"' := count_afterSpaced h₉
  have hid : s₁₀.count '"' ≤ s₉.count '"' := by simpa using count_cutAt h₁₀
  obtain ⟨t, ht, -⟩ := Option.map_eq_some_iff.1 h₁₁
  have hlast : s₁₀.count '"' = 1 + t.count '"' := by
    rw [afterPattern_eq_append ht, List.count_append]
    rfl
  omega

end Reading

/-! ## reading lines -/

section Solutions

variable {dir : Path} {e : LineEnd}

theorem isProjectPath_eq (p : ListedPath) : isProjectPath p.chars = decide p.IsCSharp := by
  rw [Bool.eq_iff_iff, decide_eq_true_iff, isProjectPath, List.isPrefixOf_iff_prefix,
    List.reverse_prefix, ListedPath.IsCSharp]

theorem projectPath_eq (dir : Path) (p : ListedPath) : projectPath dir p.chars = p.below dir := by
  have hslashes : withSlashes (.ofList p.chars) = .ofList (p.chars.map slash) := by
    rw [withSlashes, ← String.toList_inj, String.toList_map, String.toList_ofList,
      String.toList_ofList]
    rfl
  rw [projectPath, hslashes, ListedPath.below]

/-- The projects up to a line feed do not depend on what is behind it. -/
theorem projectsOfText_lineFeed (dir : Path) (s t : List Char) :
    projectsOfText dir (.ofList (s ++ '\n' :: t)) =
      projectsOfText dir (.ofList (s ++ ['\n'])) ++ projectsOfText dir (.ofList t) := by
  simp only [projectsOfText, String.toList_ofList, lines_lineFeed s t, List.filterMap_append]

theorem projectsOfText_lineEnd (dir : Path) (s : List Char) (e : LineEnd) (t : List Char) :
    projectsOfText dir (.ofList (s ++ e.chars ++ t)) =
      projectsOfText dir (.ofList (s ++ e.chars)) ++ projectsOfText dir (.ofList t) := by
  obtain ⟨front, hfront⟩ : ∃ front, s ++ e.chars = front ++ ['\n'] := by
    cases e with
    | lineFeed => exact ⟨s, rfl⟩
    | carriageReturn => exact ⟨s ++ ['\r'], by simp [LineEnd.chars]⟩
  rw [hfront, List.append_assoc, List.singleton_append]
  exact projectsOfText_lineFeed dir front t

/-- There are no projects where no line is read as one. -/
theorem projectsOfText_eq_nil {s : List Char} (h : ∀ line ∈ lines s, projectLine? line = none) :
    projectsOfText dir (.ofList s) = [] := by
  rw [projectsOfText, String.toList_ofList, List.filterMap_eq_nil_iff.2 h, List.filterMap_nil]

theorem projectsOfText_other {text : List Char} (hfeed : '\n' ∉ text)
    (hopening : ¬ projectOpening <+: trimStart text) :
    projectsOfText dir (.ofList (text ++ e.chars)) = [] := by
  obtain ⟨line, b, hb, rfl, hlines⟩ := exists_lines_lineEnd hfeed e []
  refine projectsOfText_eq_nil fun l hl => ?_
  rw [List.append_nil] at hlines
  rw [hlines] at hl
  rw [List.mem_singleton.1 hl]
  have hline : ¬ projectOpening.isPrefixOf (trimStart line) = true := by
    intro hlead
    have hlead : projectOpening <+: trimStart line := List.isPrefixOf_iff_prefix.1 hlead
    cases hblank : isBlankText line with
    | true =>
      rw [trimStart_eq_nil hblank] at hlead
      exact absurd (List.prefix_nil.1 hlead) (by decide)
    | false =>
      rw [trimStart_append hblank] at hopening
      exact hopening (hlead.trans (List.prefix_append _ b))
  have hafter : afterSpaced "Project(\"\x7b" line = none := if_neg hline
  rw [projectLine?, hafter]
  rfl

/-- The text of the line of a project, cut at its stem. -/
theorem text_project (dir : Path) (kind : Guid) (p : ListedPath) (id : Guid) :
    (SolutionLine.project kind p id).text dir =
      "Project(\"\x7b".toList ++ kind.chars ++ "\x7d\") = \"".toList ++ (p.stem dir).toList ++
        ("\", \"".toList ++ p.chars ++ "\", \"\x7b".toList ++ id.chars ++ "\x7d\"".toList) := by
  unfold SolutionLine.text
  simp only [List.append_assoc]

/-- A stem without line feeds stays in its line. -/
theorem projectsOfText_project {kind id : Guid} {p : ListedPath}
    (hquote : '"' ∉ (p.stem dir).toList) (hfeed : '\n' ∉ (p.stem dir).toList) :
    projectsOfText dir (.ofList ((SolutionLine.project kind p id).text dir ++ e.chars)) =
      csharpProjects dir [p] := by
  have hread : projectLine? ((SolutionLine.project kind p id).text dir) =
      some ((p.stem dir).toList, p.chars) :=
    projectLine?_text (kind.not_mem (by decide)) (id.not_mem (by decide)) hquote p.quote_not_mem
  have hline : '\n' ∉ (SolutionLine.project kind p id).text dir := by
    have hkind : '\n' ∉ kind.chars := kind.not_mem (by decide)
    have hid : '\n' ∉ id.chars := id.not_mem (by decide)
    rw [text_project]
    simp [hkind, hid, hfeed, p.lineFeed_not_mem]
  have hlast : ((SolutionLine.project kind p id).text dir).getLast? = some '"' := by
    rw [text_project, List.getLast?_append_of_ne_nil _ (by simp),
      List.getLast?_append_of_ne_nil _ (by simp)]
    rfl
  obtain ⟨line, b, hb, htext, hlines⟩ := exists_lines_lineEnd hline e []
  have hnil : b = [] := by
    by_contra hne
    rw [htext, List.getLast?_append_of_ne_nil _ hne] at hlast
    have hmem := isBlankText_iff.1 hb _ (List.mem_of_getLast? hlast)
    exact absurd hmem (by decide)
  rw [hnil, List.append_nil] at htext
  rw [List.append_nil, ← htext] at hlines
  rw [projectsOfText, String.toList_ofList, hlines, lines, List.filterMap_cons_some hread,
    List.filterMap_nil, csharpProjects]
  by_cases hcsharp : p.IsCSharp
  · simp [isProjectPath_eq, hcsharp, ListedPath.reference, projectPath_eq]
  · simp [isProjectPath_eq, hcsharp]

/-- A line feed in a stem breaks the line into parts that are not read. -/
theorem projectsOfText_broken {kind id : Guid} {p : ListedPath}
    (hquote : '"' ∉ (p.stem dir).toList) (hfeed : '\n' ∈ (p.stem dir).toList) :
    projectsOfText dir (.ofList ((SolutionLine.project kind p id).text dir ++ e.chars)) = [] := by
  obtain ⟨a, b, hstem⟩ := List.append_of_mem hfeed
  rw [hstem, List.mem_append, List.mem_cons, not_or, not_or] at hquote
  have hkind : kind.chars.count '"' = 0 := List.count_eq_zero.2 (kind.not_mem (by decide))
  have hid : id.chars.count '"' = 0 := List.count_eq_zero.2 (id.not_mem (by decide))
  have hpath : p.chars.count '"' = 0 := List.count_eq_zero.2 p.quote_not_mem
  have ha : a.count '"' = 0 := List.count_eq_zero.2 hquote.1
  have hb : b.count '"' = 0 := List.count_eq_zero.2 hquote.2.2
  let front : List Char := "Project(\"\x7b".toList ++ kind.chars ++ "\x7d\") = \"".toList ++ a
  let back : List Char := b ++ ("\", \"".toList ++ p.chars ++ "\", \"\x7b".toList ++ id.chars ++
    "\x7d\"".toList) ++ e.chars
  have htext : (SolutionLine.project kind p id).text dir ++ e.chars = front ++ '\n' :: back := by
    rw [text_project, hstem]
    simp only [front, back, List.append_assoc, List.cons_append]
  have hfront : (front ++ ['\n']).count '"' = 3 := by
    simp [front, List.count_append, hkind, ha]
  have hback : back.count '"' = 5 := by
    cases e <;> simp [back, List.count_append, hid, hpath, hb, LineEnd.chars]
  have hnone : ∀ s : List Char, s.count '"' < 8 → projectsOfText dir (.ofList s) = [] := by
    refine fun s hs => projectsOfText_eq_nil fun line hline => ?_
    have hcount := (sublist_of_mem_lines hline).count_le '"'
    refine Option.eq_none_iff_forall_ne_some.2 fun found hfound => ?_
    have := count_of_projectLine? hfound
    omega
  rw [htext, projectsOfText_lineFeed, hnone _ (by omega), hnone _ (by omega), List.append_nil]

theorem projectsOfText_line {l : SolutionLine}
    (h : ∀ p, l.path? = some p → '"' ∉ (p.stem dir).toList) :
    projectsOfText dir (.ofList (l.text dir ++ e.chars)) = csharpProjects dir l.path?.toList := by
  cases l with
  | other text htext => exact projectsOfText_other htext.1 htext.2
  | project kind p id =>
    have hquote := h p rfl
    by_cases hfeed : '\n' ∈ (p.stem dir).toList
    · -- only the path of another project has a stem from elsewhere
      have hother : ¬ p.IsCSharp := fun hcsharp => by
        rcases ListedPath.mem_of_mem_stem hcsharp hfeed with hmem | heq
        · exact p.lineFeed_not_mem hmem
        · exact absurd heq (by decide)
      rw [projectsOfText_broken hquote hfeed]
      simp [SolutionLine.path?, csharpProjects, hother]
    · exact projectsOfText_project hquote hfeed

theorem csharpProjects_append (dir : Path) (ps qs : List ListedPath) :
    csharpProjects dir (ps ++ qs) = csharpProjects dir ps ++ csharpProjects dir qs := by
  rw [csharpProjects, List.filter_append, List.map_append]
  rfl

/-- What is read of a solution that is written as lines are the C# projects among
the paths that the lines list, unless a stem holds a double quote. -/
theorem projectsOfText_solutionText {ls : List SolutionLine}
    (h : ∀ p ∈ pathsOfLines ls, '"' ∉ (p.stem dir).toList) :
    projectsOfText dir (.ofList (solutionText dir e ls)) = csharpProjects dir (pathsOfLines ls) := by
  induction ls with
  | nil => rfl
  | cons l ls ih =>
    have hpaths : pathsOfLines (l :: ls) = l.path?.toList ++ pathsOfLines ls := by
      cases hp : l.path? <;> simp [pathsOfLines, hp]
    rw [hpaths, List.forall_mem_append] at h
    rw [solutionText, List.flatMap_cons, projectsOfText_lineEnd, ← solutionText, ih h.2, hpaths,
      csharpProjects_append, projectsOfText_line fun p hp => h.1 p (by rw [hp]; exact .head _)]

end Solutions

end ResourceAudit
