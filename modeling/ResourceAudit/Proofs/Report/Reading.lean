import ResourceAudit.Proofs.Resource.Normal
import ResourceAudit.Proofs.Text.Fields

/-!
# ResourceAudit.Proofs.Report.Reading

Reading a report back.  Values and names stand in a report as they are, with no
quotes or escapes that would tell where they end.  What ends them is the line,
so they may hold anything but a line feed; and what tells a headline from the
line of a name is its first character, which neither a value nor a name can
change (`headlineValue?_headline`, `headlineValue?_nameLine`).  So the lines of a
report are found (`fields_reportGroups`), and from the last line back to the
first they give the groups again (`readGroups_reportGroups`).
-/

namespace ResourceAudit

open ResourceAudit.Text

/-! ## lines of a report -/

/-- Having a value and names that stand on one line each. -/
structure Group.IsOnLines (g : Group) : Prop where
  value : '\n' ∉ g.value.toList
  names : ∀ name ∈ g.names, '\n' ∉ name.toList

instance (g : Group) : Decidable g.IsOnLines :=
  decidable_of_iff ('\n' ∉ g.value.toList ∧ ∀ name ∈ g.names, '\n' ∉ name.toList)
    ⟨fun h => ⟨h.1, h.2⟩, fun h => ⟨h.value, h.names⟩⟩

/-- The lines of a report for a group. -/
def Group.reportLines (g : Group) : List (List Char) := g.headline :: g.names.map nameLine

theorem toList_reportGroups (groups : List Group) :
    (reportGroups groups).toList = (groups.flatMap Group.reportLines).flatMap (· ++ ['\n']) := by
  simp [reportGroups, String.toList_join, List.flatMap_map, Group.toList_report,
    Group.reportLines, List.flatMap_assoc]

theorem Group.IsOnLines.lineFeed_not_mem {g : Group} (h : g.IsOnLines) {line : List Char}
    (hline : line ∈ g.reportLines) : '\n' ∉ line := by
  rw [reportLines, List.mem_cons, List.mem_map] at hline
  obtain rfl | ⟨name, hname, rfl⟩ := hline
  · exact lineFeed_not_mem_headline h.value
  · rw [nameLine, List.mem_append, not_or]
    exact ⟨by decide, h.names name hname⟩

/-- The lines of a report are the pieces between its line feeds. -/
theorem fields_reportGroups {groups : List Group} (h : ∀ g ∈ groups, g.IsOnLines) :
    fields (· == '\n') (reportGroups groups).toList = groups.flatMap Group.reportLines ++ [[]] := by
  rw [toList_reportGroups, fields_flatMap_sep]
  intro line hline
  obtain ⟨g, hg, hline⟩ := List.mem_flatMap.1 hline
  exact (h g hg).lineFeed_not_mem hline

/-! ## reading -/

/-- What a headline has in front of the value. -/
def headlineStart : List Char := "The following resx files have duplicate values '".toList

/-- What a headline has behind the value. -/
def headlineEnd : List Char := "':".toList

/-- The value that a line of a report shows, if the line is a headline. -/
def headlineValue? (line : List Char) : Option String :=
  (afterPattern headlineStart line).map fun rest =>
    .ofList (rest.take (rest.length - headlineEnd.length))

/-- What has been read of a report from its end on: names whose headline is still
to come, and groups. -/
structure ReadBehind where
  names : List String
  groups : List Group

/-- Reads the line in front of those that have been read. -/
def ReadBehind.readLine (line : List Char) (behind : ReadBehind) : ReadBehind :=
  match headlineValue? line with
  | some value => ⟨[], ⟨value, behind.names⟩ :: behind.groups⟩
  | none => ⟨.ofList (line.drop 2) :: behind.names, behind.groups⟩

/-- The groups that a report is about. -/
def readGroups (report : String) : List Group :=
  ((fields (· == '\n') report.toList).dropLast.foldr ReadBehind.readLine ⟨[], []⟩).groups

/-- A headline shows its value, whatever marks of a headline the value itself
holds. -/
theorem headlineValue?_headline (g : Group) : headlineValue? g.headline = some g.value := by
  have hline : g.headline = headlineStart ++ (g.value.toList ++ headlineEnd) := by
    unfold Group.headline headlineStart headlineEnd
    exact List.append_assoc _ _ _
  have hstart : headlineStart.isPrefixOf (headlineStart ++ (g.value.toList ++ headlineEnd)) = true :=
    List.isPrefixOf_iff_prefix.2 (List.prefix_append _ _)
  rw [headlineValue?, hline, afterPattern, if_pos hstart, List.drop_left, Option.map_some,
    List.length_append, Nat.add_sub_cancel, List.take_left, String.ofList_toList]

/-- The line of a name begins with a space, so that it is never a headline. -/
theorem headlineValue?_nameLine (name : String) : headlineValue? (nameLine name) = none := by
  rw [headlineValue?, afterPattern, if_neg, Option.map_none]
  rw [List.isPrefixOf_iff_prefix]
  rintro ⟨rest, hrest⟩
  have hstart : headlineStart.head? = some 'T' := by decide
  have hspace : (headlineStart ++ rest).head? = some ' ' := by
    rw [hrest, nameLine, List.head?_append]
    rfl
  rw [List.head?_append, hstart] at hspace
  cases hspace

theorem readLine_headline (g : Group) (behind : ReadBehind) :
    behind.readLine g.headline = ⟨[], ⟨g.value, behind.names⟩ :: behind.groups⟩ := by
  rw [ReadBehind.readLine, headlineValue?_headline]

theorem readLine_nameLine (name : String) (behind : ReadBehind) :
    behind.readLine (nameLine name) = ⟨name :: behind.names, behind.groups⟩ := by
  have hdrop : (nameLine name).drop 2 = name.toList := rfl
  rw [ReadBehind.readLine, headlineValue?_nameLine, hdrop, String.ofList_toList]

theorem foldr_readLine_names (names : List String) (behind : ReadBehind) :
    (names.map nameLine).foldr ReadBehind.readLine behind =
      ⟨names ++ behind.names, behind.groups⟩ := by
  induction names with
  | nil => rfl
  | cons name names ih => rw [List.map_cons, List.foldr_cons, ih, readLine_nameLine, List.cons_append]

/-- The lines of groups are read as these groups. -/
theorem foldr_readLine_reportLines (groups : List Group) :
    (groups.flatMap Group.reportLines).foldr ReadBehind.readLine ⟨[], []⟩ = ⟨[], groups⟩ := by
  induction groups with
  | nil => rfl
  | cons g groups ih =>
    rw [List.flatMap_cons, List.foldr_append, ih, Group.reportLines, List.foldr_cons,
      foldr_readLine_names, readLine_headline, List.append_nil]

theorem readGroups_reportGroups {groups : List Group} (h : ∀ g ∈ groups, g.IsOnLines) :
    readGroups (reportGroups groups) = groups := by
  rw [readGroups, fields_reportGroups h, List.dropLast_concat, foldr_readLine_reportLines]

/-- A report is unambiguous.  Groups whose values and names are on one line each
are read back from it, with their order and that of their names; so different
groups never have the same report. -/
theorem reportGroups_unambiguous {groups : List Group} (h : ∀ g ∈ groups, g.IsOnLines) :
    readGroups (reportGroups groups) = groups ∧
      ∀ others : List Group, (∀ g ∈ others, g.IsOnLines) →
        (reportGroups groups = reportGroups others ↔ groups = others) := by
  refine ⟨readGroups_reportGroups h, fun others hothers => ⟨fun heq => ?_, fun heq => heq ▸ rfl⟩⟩
  calc groups
    _ = readGroups (reportGroups groups) := (readGroups_reportGroups h).symm
    _ = readGroups (reportGroups others) := by rw [heq]
    _ = others := readGroups_reportGroups hothers

/-- Groups that hold the marks of a report, and one without names. -/
def markedGroups : List Group :=
  [⟨"x':", ["The following resx files have duplicate values 'y':", "  P:A.Save"]⟩, ⟨" '", []⟩]

theorem reportGroups_unambiguous_markedGroups :
    (∀ g ∈ markedGroups, g.IsOnLines) ∧ readGroups (reportGroups markedGroups) = markedGroups ∧
      reportGroups markedGroups ≠ reportGroups [⟨"x':", []⟩, ⟨"y", ["  P:A.Save"]⟩, ⟨" '", []⟩] := by
  have hmarked : ∀ g ∈ markedGroups, g.IsOnLines := by decide
  obtain ⟨hread, hsame⟩ := reportGroups_unambiguous hmarked
  exact ⟨hmarked, hread, (hsame _ (by decide)).not.2 (by decide)⟩

end ResourceAudit
