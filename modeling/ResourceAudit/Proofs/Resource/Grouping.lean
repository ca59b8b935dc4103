import ResourceAudit.Proofs.Resource.Table

/-!
# ResourceAudit.Proofs.Resource.Grouping

What it is to be the duplicates of a list of entries, and the calls on a table
that lead there.

`IsGrouping` names the parts: no value twice, two names at least, everything
listed that shares its value and nothing else, both orders those of the
entries.  What a table reports meets it, since the names of a table are
distinct (`isGrouping_sharedGroups`).  A run of calls on a table keeps both:
its entries are the first of each name among those it was offered, and each
answer tells what the call did (`Table.calls_keep_first_entries`).
-/

namespace ResourceAudit

/-! ## shared values -/

theorem mem_namesWith {es : List Entry} {value name : String} :
    name ∈ namesWith es value ↔ ∃ e ∈ es, e.value = value ∧ e.name = name := by
  simp [namesWith, and_assoc]

theorem nodup_namesWith {es : List Entry} (h : (es.map (·.name)).Nodup) (value : String) :
    (namesWith es value).Nodup :=
  h.sublist (List.filter_sublist.map _)

theorem mem_sharedGroups {es : List Entry} {g : Group} :
    g ∈ sharedGroups es ↔ g ∈ valueGroups es ∧ 1 < g.names.length := by
  simp [sharedGroups]

/-- The group of an entry has a second name exactly if another name has its
value. -/
theorem one_lt_length_namesWith {es : List Entry} (h : (es.map (·.name)).Nodup) {e : Entry}
    (he : e ∈ es) :
    1 < (namesWith es e.value).length ↔
      ∃ other ∈ es, other.name ≠ e.name ∧ other.value = e.value := by
  have hn : (namesWith es e.value).Nodup := nodup_namesWith h e.value
  have hmem : e.name ∈ namesWith es e.value := mem_namesWith.2 ⟨e, he, rfl, rfl⟩
  have hlen := List.length_erase_of_mem hmem
  constructor
  · intro hlt
    -- what is left without the name of the entry has a name still
    obtain ⟨name, hname⟩ := List.exists_mem_of_length_pos
      (l := (namesWith es e.value).erase e.name) (by omega)
    obtain ⟨hne, hname⟩ := hn.mem_erase_iff.1 hname
    obtain ⟨other, hother, hv, rfl⟩ := mem_namesWith.1 hname
    exact ⟨other, hother, hne, hv⟩
  · rintro ⟨other, hother, hne, hv⟩
    have hname : other.name ∈ (namesWith es e.value).erase e.name :=
      hn.mem_erase_iff.2 ⟨hne, mem_namesWith.2 ⟨other, hother, hv, rfl⟩⟩
    have hpos := List.length_pos_of_mem hname
    omega

/-! ## groupings -/

/-- Being the groups of the entries whose value another name has too. -/
structure IsGrouping (es : List Entry) (groups : List Group) : Prop where
  /-- No value has two groups. -/
  nodup_values : (groups.map (·.value)).Nodup
  /-- A group has two names or more. -/
  two_le_length : ∀ g ∈ groups, 2 ≤ g.names.length
  /-- An entry is listed in the group of its value if another name has that value,
  and only then. -/
  listed_iff : ∀ e ∈ es, (∃ g ∈ groups, g.value = e.value ∧ e.name ∈ g.names) ↔
    ∃ other ∈ es, other.name ≠ e.name ∧ other.value = e.value
  /-- The names of a group are those of its value, in the order of the entries. -/
  names_eq : ∀ g ∈ groups, g.names = namesWith es g.value
  /-- The groups follow the order in which the values come first. -/
  values_sublist : (groups.map (·.value)).Sublist ((distinctBy (·.value) es).map (·.value))

/-- Every name of a group is that of an entry with the value of the group. -/
theorem IsGrouping.exists_entry {es : List Entry} {groups : List Group} (h : IsGrouping es groups)
    {g : Group} (hg : g ∈ groups) {name : String} (hn : name ∈ g.names) :
    ∃ e ∈ es, e.value = g.value ∧ e.name = name := by
  rw [h.names_eq g hg] at hn
  exact mem_namesWith.1 hn

/-- The shared values of entries with distinct names are their grouping. -/
theorem isGrouping_sharedGroups {es : List Entry} (h : (es.map (·.name)).Nodup) :
    IsGrouping es (sharedGroups es) where
  nodup_values := by
    have hall : ((valueGroups es).map (·.value)).Nodup := by
      rw [map_value_valueGroups]
      exact nodup_map_distinctBy _ _
    exact hall.sublist (List.filter_sublist.map _)
  two_le_length g hg := (mem_sharedGroups.1 hg).2
  listed_iff e he := by
    rw [← one_lt_length_namesWith h he]
    constructor
    · rintro ⟨g, hg, hv, -⟩
      obtain ⟨hg, hlt⟩ := mem_sharedGroups.1 hg
      rwa [(mem_valueGroups.1 hg).2, hv] at hlt
    · intro hlt
      have hg : (⟨e.value, namesWith es e.value⟩ : Group) ∈ valueGroups es :=
        mem_valueGroups.2 ⟨List.mem_map.2 ⟨e, he, rfl⟩, rfl⟩
      exact ⟨_, mem_sharedGroups.2 ⟨hg, hlt⟩, rfl, mem_namesWith.2 ⟨e, he, rfl, rfl⟩⟩
  names_eq g hg := (mem_valueGroups.1 (mem_sharedGroups.1 hg).1).2
  values_sublist := by
    rw [← map_value_valueGroups]
    exact List.filter_sublist.map _

/-- A name is reported if another name has its value, and only then. -/
theorem mem_reported {es : List Entry} (h : (es.map (·.name)).Nodup) {name : String} :
    name ∈ (sharedGroups es).flatMap (·.names) ↔
      ∃ e ∈ es, e.name = name ∧ ∃ other ∈ es, other.name ≠ name ∧ other.value = e.value := by
  have hg := isGrouping_sharedGroups h
  rw [List.mem_flatMap]
  constructor
  · rintro ⟨g, hmem, hname⟩
    obtain ⟨e, he, hv, rfl⟩ := hg.exists_entry hmem hname
    exact ⟨e, he, rfl, (hg.listed_iff e he).1 ⟨g, hmem, hv.symm, hname⟩⟩
  · rintro ⟨e, he, rfl, hother⟩
    obtain ⟨g, hmem, -, hname⟩ := (hg.listed_iff e he).2 hother
    exact ⟨g, hmem, hname⟩

/-- No name is reported twice. -/
theorem nodup_reported {es : List Entry} (h : (es.map (·.name)).Nodup) :
    ((sharedGroups es).flatMap (·.names)).Nodup := by
  have hg := isGrouping_sharedGroups h
  rw [List.nodup_flatMap]
  constructor
  · intro g hmem
    rw [hg.names_eq g hmem]
    exact nodup_namesWith h g.value
  · have hpair := List.pairwise_map.1 hg.nodup_values
    refine hpair.imp_of_mem fun {g g'} hmem hmem' hne => ?_
    intro name hname hname'
    obtain ⟨e, he, hv, hn⟩ := hg.exists_entry hmem hname
    obtain ⟨e', he', hv', hn'⟩ := hg.exists_entry hmem' hname'
    have heq : e = e' := List.inj_on_of_nodup_map h he he' (hn.trans hn'.symm)
    exact hne (by rw [← hv, ← hv', heq])

/-! ## calls -/

/-- A call on a table. -/
inductive TableCall where
  | insert (e : Entry)
  | duplicates
  deriving DecidableEq, Repr

/-- What a call answers: whether the entry was added, or the duplicates so far. -/
inductive TableAnswer where
  | inserted (added : Bool)
  | groups (groups : List Group)
  deriving DecidableEq, Repr

/-- The entry that a call offers. -/
def TableCall.entry? : TableCall → Option Entry
  | .insert e => some e
  | .duplicates => none

namespace Table

/-- The answer of a call. -/
def answer (t : Table) : TableCall → TableAnswer
  | .insert e => .inserted (t.admits e)
  | .duplicates => .groups t.duplicates

/-- The table that a call leaves. -/
def call (t : Table) : TableCall → Table
  | .insert e => t.insert e
  | .duplicates => t

/-- The table that calls leave which are made one after the other. -/
def calls (t : Table) (cs : List TableCall) : Table := cs.foldl call t

/-- The answers of calls that are made one after the other. -/
def answers (t : Table) : List TableCall → List TableAnswer
  | [] => []
  | c :: rest => t.answer c :: (t.call c).answers rest

@[simp] theorem calls_append (t : Table) (before after : List TableCall) :
    t.calls (before ++ after) = (t.calls before).calls after := List.foldl_append

theorem entries_prefix_call (t : Table) (c : TableCall) : t.entries <+: (t.call c).entries := by
  cases c with
  | insert e => exact entries_prefix_insert t e
  | duplicates => exact List.prefix_rfl

/-- Calls take nothing away and change nothing that is there. -/
theorem entries_prefix_calls (t : Table) (cs : List TableCall) :
    t.entries <+: (t.calls cs).entries := by
  induction cs generalizing t with
  | nil => exact List.prefix_rfl
  | cons c rest ih => exact (entries_prefix_call t c).trans (ih (t.call c))

/-- The table after calls is that of the entries they offer. -/
theorem calls_empty (cs : List TableCall) :
    empty.calls cs = ofEntries (cs.filterMap TableCall.entry?) := by
  induction cs using List.reverseRecOn with
  | nil => rfl
  | append_singleton cs c ih =>
    rw [calls_append, ih, List.filterMap_append]
    cases c with
    | insert e => simp [calls, call, TableCall.entry?, ofEntries_concat]
    | duplicates =>
      have hnone : [TableCall.duplicates].filterMap TableCall.entry? = [] := rfl
      rw [hnone, List.append_nil]
      rfl

/-- Each call answers for the table that the calls before it leave. -/
theorem getElem?_answers (t : Table) (before : List TableCall) (c : TableCall)
    (after : List TableCall) :
    (t.answers (before ++ c :: after))[before.length]? = some ((t.calls before).answer c) := by
  induction before generalizing t with
  | nil => rfl
  | cons b rest ih => exact ih (t.call b)

theorem nodup_names_calls (cs : List TableCall) : ((empty.calls cs).entries.map (·.name)).Nodup := by
  rw [calls_empty, entries_ofEntries]
  exact nodup_names_keptEntries _

/-- After any calls on an empty table it holds the entries that were offered,
without the blank ones and without those that repeat a name; no call takes away
or changes an entry; an insertion answers whether it made the table longer; and
the duplicates, which may be asked for at any time, are the grouping by value
of the entries there are. -/
theorem calls_keep_first_entries (cs : List TableCall) :
    (empty.calls cs).entries = keptEntries (cs.filterMap TableCall.entry?) ∧
    (empty.calls cs).names.Nodup ∧
    (∀ e ∈ (empty.calls cs).entries, e.isBlank = false) ∧
    (∀ before after, cs = before ++ after →
      (empty.calls before).entries <+: (empty.calls cs).entries) ∧
    (∀ before e after, cs = before ++ .insert e :: after →
      ∃ added, (empty.answers cs)[before.length]? = some (.inserted added) ∧
        (added = true ↔
          (empty.calls (before ++ [.insert e])).size = (empty.calls before).size + 1)) ∧
    (∀ before after, cs = before ++ .duplicates :: after →
      ∃ groups, (empty.answers cs)[before.length]? = some (.groups groups) ∧
        IsGrouping (empty.calls before).entries groups) ∧
    (empty.calls cs).duplicates = sharedGroups (empty.calls cs).entries ∧
    IsGrouping (empty.calls cs).entries (empty.calls cs).duplicates := by
  have hgrouping : ∀ cs, IsGrouping (empty.calls cs).entries (empty.calls cs).duplicates := by
    intro cs
    rw [duplicates_eq]
    exact isGrouping_sharedGroups (nodup_names_calls cs)
  have hentries : (empty.calls cs).entries = keptEntries (cs.filterMap TableCall.entry?) := by
    rw [calls_empty, entries_ofEntries]
  refine ⟨hentries, nodup_names_calls cs, ?_, ?_, ?_, ?_, duplicates_eq _, hgrouping cs⟩
  · intro e he
    exact isBlank_of_mem_keptEntries (hentries ▸ he)
  · rintro before after rfl
    rw [calls_append]
    exact entries_prefix_calls _ after
  · rintro before e after rfl
    refine ⟨_, getElem?_answers empty before (.insert e) after, ?_⟩
    have hsize : (empty.calls (before ++ [.insert e])).size = ((empty.calls before).insert e).size := by
      rw [calls_append]
      rfl
    rw [hsize, size_insert]
    cases hadmits : (empty.calls before).admits e <;> simp
  · rintro before after rfl
    exact ⟨_, getElem?_answers empty before .duplicates after, hgrouping before⟩

end Table

end ResourceAudit
