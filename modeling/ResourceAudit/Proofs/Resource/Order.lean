import ResourceAudit.Proofs.Resource.Duplicates
import Mathlib.Data.Finset.Basic

/-!
# ResourceAudit.Proofs.Resource.Order

What does not depend on the order of entries.  A table keeps the first value of
a name, so the order matters where a name has several values.  Where every name
has one (`IsConsistent`), a table holds just the entries that are not blank
(`mem_keptEntries_iff`), and neither the order of the entries nor how often they
are offered shows in the report (`reportsAlike_ofEntries`), apart from the order
of the groups and of the names in them.
-/

namespace ResourceAudit

/-! ## consistent entries -/

/-- Having one value at most for each name. -/
def IsConsistent (es : List Entry) : Prop :=
  ∀ e ∈ es, ∀ other ∈ es, e.name = other.name → e.value = other.value

instance (es : List Entry) : Decidable (IsConsistent es) :=
  inferInstanceAs (Decidable (∀ e ∈ es, ∀ other ∈ es, e.name = other.name → e.value = other.value))

/-- No entry that is not blank gets lost where the names have one value each. -/
theorem mem_keptEntries_iff {es : List Entry} (hc : IsConsistent es) {e : Entry} :
    e ∈ keptEntries es ↔ e ∈ es ∧ e.isBlank = false := by
  have hsubset : keptEntries es ⊆ es.filter (!·.isBlank) := (distinctBy_sublist _ _).subset
  constructor
  · intro he
    exact ⟨(List.mem_filter.1 (hsubset he)).1, isBlank_of_mem_keptEntries he⟩
  · rintro ⟨he, hblank⟩
    have hname : e.name ∈ (keptEntries es).map (·.name) := by
      rw [keptEntries, mem_map_distinctBy]
      exact List.mem_map.2 ⟨e, List.mem_filter.2 ⟨he, by rw [hblank, Bool.not_false]⟩, rfl⟩
    -- the entry that is kept under this name has the same value
    obtain ⟨kept, hkept, hn⟩ := List.mem_map.1 hname
    have hv := hc kept (List.mem_filter.1 (hsubset hkept)).1 e he hn
    cases kept
    cases e
    cases hn
    cases hv
    exact hkept

/-- The same entries leave the same in a table, in some order. -/
theorem perm_keptEntries {es es' : List Entry} (hc : IsConsistent es)
    (h : ∀ e, e ∈ es ↔ e ∈ es') : (keptEntries es).Perm (keptEntries es') := by
  have hc' : IsConsistent es' := fun e he other hother =>
    hc e ((h e).2 he) other ((h other).2 hother)
  have hnodup : ∀ es, (keptEntries es).Nodup := fun es => .of_map _ (nodup_names_keptEntries es)
  refine (List.perm_ext_iff_of_nodup (hnodup es) (hnodup es')).2 fun e => ?_
  rw [mem_keptEntries_iff hc, mem_keptEntries_iff hc', h]

/-! ## reports -/

/-- Groups as a set of values, each with the set of its names. -/
def groupSet (groups : List Group) : Finset (String × Finset String) :=
  (groups.map fun g => (g.value, g.names.toFinset)).toFinset

theorem mem_groupSet {groups : List Group} {value : String} {names : Finset String} :
    (value, names) ∈ groupSet groups ↔
      ∃ g ∈ groups, g.value = value ∧ g.names.toFinset = names := by
  simp [groupSet]

theorem groupSet_eq_empty {groups : List Group} : groupSet groups = ∅ ↔ groups = [] := by
  simp [groupSet]

/-- Reporting the same, up to the order of the groups and of their names. -/
structure Table.ReportsAlike (t t' : Table) : Prop where
  groupSet_eq : groupSet t.duplicates = groupSet t'.duplicates
  size_eq : t.size = t'.size
  status_eq : Status.ofGroups t.duplicates.length = Status.ofGroups t'.duplicates.length

theorem groupSet_sharedGroups_subset {es es' : List Entry} (h : es.Perm es') :
    groupSet (sharedGroups es) ⊆ groupSet (sharedGroups es') := by
  rintro ⟨value, names⟩ hmem
  obtain ⟨g, hg, rfl, rfl⟩ := mem_groupSet.1 hmem
  obtain ⟨hg, hlt⟩ := mem_sharedGroups.1 hg
  obtain ⟨hvalue, hnames⟩ := mem_valueGroups.1 hg
  have hperm : g.names.Perm (namesWith es' g.value) := hnames ▸ (h.filter _).map _
  refine mem_groupSet.2 ⟨⟨g.value, namesWith es' g.value⟩, mem_sharedGroups.2 ⟨?_, ?_⟩, rfl,
    (List.toFinset_eq_of_perm _ _ hperm).symm⟩
  · exact mem_valueGroups.2 ⟨(h.map _).subset hvalue, rfl⟩
  · exact hperm.length_eq ▸ hlt

/-- Tables with the same entries in some order report the same. -/
theorem Table.reportsAlike_of_perm {t t' : Table} (h : t.entries.Perm t'.entries) :
    t.ReportsAlike t' := by
  have hgroups : groupSet t.duplicates = groupSet t'.duplicates := by
    rw [duplicates_eq, duplicates_eq]
    exact (groupSet_sharedGroups_subset h).antisymm (groupSet_sharedGroups_subset h.symm)
  refine ⟨hgroups, h.length_eq, ?_⟩
  have hempty : t.duplicates = [] ↔ t'.duplicates = [] := by
    rw [← groupSet_eq_empty, hgroups, groupSet_eq_empty]
  simp only [Status.ofGroups, List.length_eq_zero_iff, hempty]

/-- The tables of the same entries report the same where the names have one
value each. -/
theorem Table.reportsAlike_ofEntries {es es' : List Entry} (hc : IsConsistent es)
    (h : ∀ e, e ∈ es ↔ e ∈ es') : (ofEntries es).ReportsAlike (ofEntries es') := by
  refine reportsAlike_of_perm ?_
  rw [entries_ofEntries, entries_ofEntries]
  exact perm_keptEntries hc h

/-- Where every name has one value, the order of units does not show in the
report on them, and the order of entries does not show in that of their table:
the groups are the same as sets of values with sets of names, the tables have
the same size, and the status is the same. -/
theorem reportsAlike_of_perm_units :
    (∀ units units' : List CompiledUnit, units.Perm units' →
      IsConsistent (collectEntries units) → (buildTable units).ReportsAlike (buildTable units')) ∧
    (∀ es es' : List Entry, es.Perm es' →
      IsConsistent es → (Table.ofEntries es).ReportsAlike (Table.ofEntries es')) := by
  constructor
  · intro units units' h hc
    have hentries : (collectEntries units).Perm (collectEntries units') := h.flatMap_right _
    exact Table.reportsAlike_ofEntries hc fun _ => hentries.mem_iff
  · intro es es' h hc
    exact Table.reportsAlike_ofEntries hc fun _ => h.mem_iff

/-- The member that makes a type an accessor. -/
def managerMember : MemberSymbol := ⟨"ResourceManager", .property, true, ""⟩

/-- A resource of a type with its text. -/
def textMember (owner resource text : String) : MemberSymbol :=
  ⟨resource, .property, true,
    s!"<member name='P:{owner}.{resource}'><summary>{text}</summary></member>"⟩

/-- A unit with one accessor, whose resources have the given texts. -/
def accessorUnit (name : String) (resources : List (String × String)) : CompiledUnit :=
  let members := resources.map fun (resource, text) => textMember name resource text
  ⟨name, [⟨.class, ⟨name, "T:" ++ name, managerMember :: members⟩⟩]⟩

/-- Two accessors that share a value, one of which is compiled twice. -/
def sharingUnits : List CompiledUnit :=
  [accessorUnit "A" [("Save", "Save"), ("Open", "Open")], accessorUnit "B" [("Store", "Save")],
    accessorUnit "A" [("Save", "Save"), ("Open", "Open")]]

theorem reportsAlike_reverse_sharingUnits :
    sharingUnits.Perm sharingUnits.reverse ∧ IsConsistent (collectEntries sharingUnits) ∧
      (buildTable sharingUnits).ReportsAlike (buildTable sharingUnits.reverse) ∧
      (Table.ofEntries (collectEntries sharingUnits)).ReportsAlike
        (Table.ofEntries (collectEntries sharingUnits).reverse) := by
  have hperm : sharingUnits.Perm sharingUnits.reverse := (List.reverse_perm _).symm
  have hc : IsConsistent (collectEntries sharingUnits) := by decide +kernel
  exact ⟨hperm, hc, reportsAlike_of_perm_units.1 _ _ hperm hc,
    reportsAlike_of_perm_units.2 _ _ (List.reverse_perm _).symm hc⟩

end ResourceAudit
