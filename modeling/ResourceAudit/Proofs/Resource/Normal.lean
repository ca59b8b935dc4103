import ResourceAudit.Proofs.Documentation.RoundTrip
import ResourceAudit.Proofs.Resource.Order
import ResourceAudit.Proofs.Text.Trimmed

/-!
# ResourceAudit.Proofs.Resource.Normal

The normal form of entries.  Whatever documentation an entry comes from, its name
and its value are trimmed, and the value is on one line (`isNormal_of_entryOfMarkup`).
Such a value is its own normal form (`joinLines_of_isTrimmed`), so documentation
written for it gives it back (`entryOfMarkup_summaryLine`), sharing a value is
sharing a normal form (`exists_sharedGroup_iff`), and the headline of a group is
one line of the report (`lines_reportGroups`).  `extracted_entries_normal` has all
of this for what is read and reported.
-/

namespace ResourceAudit

open ResourceAudit.Text ResourceAudit.Xml

/-! ## entries that are read -/

/-- An entry in normal form: its name and its value are trimmed, and the value is on one
line. -/
structure Entry.IsNormal (e : Entry) : Prop where
  name_trimmed : IsTrimmed e.name.toList
  value_trimmed : IsTrimmed e.value.toList
  lineFeed_not_mem_value : '\n' ∉ e.value.toList

/-- The trimmed lines of a text as one line are trimmed, if they are not blank. -/
theorem isTrimmed_joinLines {s : List Char} (h : isBlankText (joinLines s) = false) :
    IsTrimmed (joinLines s) := by
  refine isTrimmed_join [' '] (fun hnil => ?_) fun t ht => isTrimmed_of_mem_trimmedLines ht
  rw [joinLines, hnil] at h
  cases h

theorem lineFeed_not_mem_joinLines (s : List Char) : '\n' ∉ joinLines s :=
  not_mem_join (by decide) fun _ ht => lineFeed_not_mem_of_mem_trimmedLines ht

/-- What is trimmed and on one line stays as it is. -/
theorem joinLines_of_isTrimmed {s : List Char} (h : IsTrimmed s) (hs : '\n' ∉ s) :
    joinLines s = s := by
  rw [Documentation.joinLines_eq, h.trimmedLines_eq hs]
  rfl

theorem Extraction.isNormal_of_toEntry {x : Extraction} {e : Entry} (h : x.toEntry = some e) :
    e.IsNormal := by
  have hblank := isBlank_of_toEntry h
  rw [toEntry_eq] at h
  split at h
  · simp only [Option.bind_eq_some_iff, Option.ite_none_left_eq_some, Option.some.injEq] at h
    obtain ⟨name, -, summary, -, -, rfl⟩ := h
    rw [Entry.isBlank, Bool.or_eq_false_iff, String.toList_ofList, String.toList_ofList,
      isBlankText_trim] at hblank
    constructor
    · rw [String.toList_ofList]
      exact isTrimmed_trim hblank.1
    · rw [String.toList_ofList]
      exact isTrimmed_joinLines hblank.2
    · rw [String.toList_ofList]
      exact lineFeed_not_mem_joinLines summary
  · cases h

/-- Every entry that is read is normal, whatever text it is read from. -/
theorem isNormal_of_entryOfMarkup {documentation : String} {e : Entry}
    (h : entryOfMarkup documentation = some e) : e.IsNormal := by
  obtain ⟨x, -, hx⟩ := Option.bind_eq_some_iff.1 h
  obtain ⟨-, -, he⟩ := Option.bind_eq_some_iff.1 hx
  exact Extraction.isNormal_of_toEntry he

theorem Entry.IsNormal.joinLines_value {e : Entry} (h : e.IsNormal) :
    joinLines e.value.toList = e.value.toList :=
  joinLines_of_isTrimmed h.value_trimmed h.lineFeed_not_mem_value

/-- The entries of a table of units are read from documentation. -/
theorem isNormal_of_mem_buildTable {units : List CompiledUnit} {e : Entry}
    (h : e ∈ (buildTable units).entries) : e.IsNormal := by
  rw [entries_buildTable] at h
  obtain ⟨m, -, hm⟩ := List.mem_filterMap.1 ((distinctBy_sublist _ _).subset h)
  exact isNormal_of_entryOfMarkup hm

/-! ## writing a value again -/

/-- A value as a line of documentation. -/
def summaryLine (value : List Char) : List Char :=
  "<summary>".toList ++ escape value ++ "</summary>".toList

/-- No white space around what stands on a line. -/
def noMargins : Documentation.Margins :=
  ⟨⟨[], rfl, List.not_mem_nil⟩, ⟨[], rfl, List.not_mem_nil⟩⟩

theorem around_noMargins (s : List Char) : noMargins.around s = s := List.append_nil s

/-- A normal value is read back from the documentation that is written for it. -/
theorem entryOfMarkup_summaryLine {id : String} (hid : isBlankText id.toList = false)
    {value : List Char} (h : IsTrimmed value) (hvalue : '\n' ∉ value) :
    entryOfMarkup (Documentation.markup id [.ofList (summaryLine value)]) =
      some ⟨.ofList (trim id.toList), .ofList value⟩ := by
  obtain ⟨lead, body, tail, hsource, hbody⟩ := Documentation.exists_source_eq_markupOf id.toList
    (.together noMargins ⟨noMargins, value, hvalue⟩)
  rw [Documentation.Summary.lines, Documentation.TextLine.escaped, around_noMargins,
    around_noMargins] at hsource
  change Documentation.markupOf id.toList [summaryLine value] = _ at hsource
  rw [Documentation.Summary.value, Documentation.Summary.texts, List.map_singleton,
    ← trimmedLines_of_not_mem hvalue, h.trimmedLines_eq hvalue, join] at hbody
  have hblank : Entry.isBlank ⟨.ofList (trim id.toList), .ofList value⟩ = false := by
    rw [Entry.isBlank, String.toList_ofList, String.toList_ofList, isBlankText_trim, hid,
      h.isBlankText, Bool.or_false]
  rw [Documentation.markup, List.isEmpty_cons, if_neg Bool.false_ne_true, List.map_singleton,
    String.toList_ofList, hsource, entryOfMarkup_source, Documentation.entry_documentForest, hbody,
    hblank, if_neg Bool.false_ne_true]

/-! ## sharing a value -/

/-- Two of the entries are in one group if and only if they have the same value. -/
theorem exists_sharedGroup_iff {es : List Entry} (hnodup : (es.map (·.name)).Nodup)
    {e other : Entry} (he : e ∈ es) (hother : other ∈ es) (hne : e ≠ other) :
    (∃ g ∈ sharedGroups es, e.name ∈ g.names ∧ other.name ∈ g.names) ↔ e.value = other.value := by
  have hgroups := isGrouping_sharedGroups hnodup
  constructor
  · rintro ⟨g, hg, hname, hname'⟩
    -- names are distinct, so that a name is in no group but that of its entry's value
    have hvalue : ∀ {x : Entry}, x ∈ es → x.name ∈ g.names → x.value = g.value := by
      intro x hx hmem
      obtain ⟨y, hy, hv, hn⟩ := hgroups.exists_entry hg hmem
      rwa [← List.inj_on_of_nodup_map hnodup hy hx hn]
    rw [hvalue he hname, hvalue hother hname']
  · intro hv
    have hnames : other.name ≠ e.name := fun hn =>
      hne (List.inj_on_of_nodup_map hnodup hother he hn).symm
    obtain ⟨g, hg, hgv, hmem⟩ := (hgroups.listed_iff e he).2 ⟨other, hother, hnames, hv.symm⟩
    refine ⟨g, hg, hmem, ?_⟩
    rw [hgroups.names_eq g hg]
    exact mem_namesWith.2 ⟨other, hother, hv.symm.trans hgv.symm, rfl⟩

/-! ## the report -/

/-- The line of a report that shows the value of a group. -/
def Group.headline (g : Group) : List Char :=
  "The following resx files have duplicate values '".toList ++ g.value.toList ++ "':".toList

theorem Group.lineFeed_not_mem_headline {g : Group} (h : '\n' ∉ g.value.toList) :
    '\n' ∉ g.headline := by
  unfold headline
  rw [List.mem_append, List.mem_append, not_or, not_or]
  exact ⟨⟨by decide, h⟩, by decide⟩

/-- The text of a report line for a name. -/
def nameLine (name : String) : List Char := "  ".toList ++ name.toList

theorem Group.toList_report (g : Group) :
    g.report.toList =
      g.headline ++ '\n' :: g.names.flatMap (fun name => nameLine name ++ ['\n']) := by
  unfold report headline nameLine
  simp [String.toList_join, List.flatMap_map, toString]

/-- A report on values that are on one line each has a line for each of them. -/
theorem lines_reportGroups {groups : List Group} (h : ∀ g ∈ groups, '\n' ∉ g.value.toList) :
    lines (reportGroups groups).toList = groups.flatMap fun g =>
      g.headline :: g.names.flatMap fun name => lines (nameLine name ++ ['\n']) := by
  rw [reportGroups, String.toList_join, List.flatMap_map]
  induction groups with
  | nil => rfl
  | cons g rest ih =>
    rw [List.forall_mem_cons] at h
    have hfeed : '\n' ∉ g.headline := g.lineFeed_not_mem_headline h.1
    have hlast : ∀ c ∈ g.headline.getLast?, isBlank c = false := by
      intro c hc
      unfold Group.headline at hc
      rw [List.getLast?_append] at hc
      cases hc
      decide
    rw [List.flatMap_cons, List.flatMap_cons, Group.toList_report, List.append_assoc,
      List.cons_append, lines_append_lineFeed hfeed hlast, lines_flatMap_lineFeed, ih h.2,
      List.cons_append]

/-! ## what is read and reported -/

/-- The value of a group stands on one line. -/
theorem lineFeed_not_mem_of_mem_duplicates {units : List CompiledUnit} {g : Group}
    (h : g ∈ (buildTable units).duplicates) : '\n' ∉ g.value.toList := by
  rw [Table.duplicates_eq] at h
  obtain ⟨e, he, hv⟩ := List.mem_map.1 (mem_valueGroups.1 (mem_sharedGroups.1 h).1).1
  have hnormal := isNormal_of_mem_buildTable he
  rw [← hv]
  exact hnormal.lineFeed_not_mem_value

/-- Every entry that is read from any text is normal, and documentation written for
its value with any ID gives the value back.  So two entries of units are in one
group if and only if the normal forms of their values are the same, and every value
that is reported is one line of the report. -/
theorem extracted_entries_normal :
    (∀ documentation e, entryOfMarkup documentation = some e →
      e.IsNormal ∧ ∀ id : String, isBlankText id.toList = false →
        entryOfMarkup (Documentation.markup id [.ofList (summaryLine e.value.toList)]) =
          some ⟨.ofList (trim id.toList), e.value⟩) ∧
    ∀ units : List CompiledUnit,
      (∀ e ∈ (buildTable units).entries, ∀ other ∈ (buildTable units).entries, e ≠ other →
        ((∃ g ∈ (buildTable units).duplicates, e.name ∈ g.names ∧ other.name ∈ g.names) ↔
          joinLines e.value.toList = joinLines other.value.toList)) ∧
      lines (reportGroups (buildTable units).duplicates).toList =
        (buildTable units).duplicates.flatMap fun g =>
          g.headline :: g.names.flatMap fun name => lines (nameLine name ++ ['\n']) := by
  refine ⟨fun documentation e h => ?_, fun units => ⟨fun e he other hother hne => ?_, ?_⟩⟩
  · have hnormal := isNormal_of_entryOfMarkup h
    refine ⟨hnormal, fun id hid => ?_⟩
    have hread := entryOfMarkup_summaryLine hid hnormal.value_trimmed hnormal.lineFeed_not_mem_value
    rwa [String.ofList_toList] at hread
  · have hnodup : ((buildTable units).entries.map (·.name)).Nodup := by
      rw [entries_buildTable]
      exact nodup_map_distinctBy _ _
    rw [Table.duplicates_eq, exists_sharedGroup_iff hnodup he hother hne,
      (isNormal_of_mem_buildTable he).joinLines_value,
      (isNormal_of_mem_buildTable hother).joinLines_value, String.toList_inj]
  · exact lines_reportGroups fun g hg => lineFeed_not_mem_of_mem_duplicates hg

/-- A summary on two lines with a space as a reference, and units that share a
value. -/
theorem extracted_entries_normal_sharingUnits :
    entryOfMarkup "<member name=\"P:A.Save\"><summary>\n Save \n it&#x20;now</summary></member>" =
        some ⟨"P:A.Save", "Save it now"⟩ ∧
      entryOfMarkup (Documentation.markup "P:B.Keep"
        [.ofList (summaryLine "Save it now".toList)]) = some ⟨"P:B.Keep", "Save it now"⟩ ∧
      ∃ g ∈ (buildTable sharingUnits).duplicates,
        "P:A.Save" ∈ g.names ∧ "P:B.Store" ∈ g.names := by
  have hentry : entryOfMarkup
      "<member name=\"P:A.Save\"><summary>\n Save \n it&#x20;now</summary></member>" =
        some ⟨"P:A.Save", "Save it now"⟩ := by decide +kernel
  have hshared := (extracted_entries_normal.2 sharingUnits).1
    ⟨"P:A.Save", "Save"⟩ (by decide +kernel) ⟨"P:B.Store", "Save"⟩ (by decide +kernel) (by decide)
  exact ⟨hentry, (extracted_entries_normal.1 _ _ hentry).2 "P:B.Keep" (by decide), hshared.2 rfl⟩

end ResourceAudit
