import ResourceAudit.Proofs.Compilation.Order
import Mathlib.Data.List.Forall2

/-!
# ResourceAudit.Proofs.Resource.Growth

What becomes of the groups when more entries come.  A table keeps what it has,
so the entries of fewer units are the first ones of more units
(`entries_prefix_buildTable_append`).  A value then keeps its place among the
values and its names keep theirs: more names come behind them, and new groups
come before, between and behind the old ones (`Group.GrowsTo`).  No group can
go, so nothing that is reported on some units is hidden by more of them
(`duplicates_buildTable_append`).
-/

namespace ResourceAudit

/-- What more entries can make of a group: the value stays, and names are added
behind those there are. -/
structure Group.GrowsTo (g g' : Group) : Prop where
  value_eq : g'.value = g.value
  names_prefix : g.names <+: g'.names

/-! ## groups of more entries -/

theorem namesWith_append (es more : List Entry) (value : String) :
    namesWith (es ++ more) value = namesWith es value ++ namesWith more value := by
  rw [namesWith, List.filter_append, List.map_append, namesWith, namesWith]

/-- What is kept of related elements stays related if a relation keeps what is
kept. -/
theorem sublistForall₂_filter {α β : Type} {R : α → β → Prop} {p : α → Bool} {q : β → Bool}
    (hR : ∀ a b, R a b → p a = true → q b = true) {l : List α} {m : List β}
    (h : List.SublistForall₂ R l m) : List.SublistForall₂ R (l.filter p) (m.filter q) := by
  induction h with
  | nil => exact .nil
  | @cons a b l m hab _ ih =>
    cases ha : p a with
    | true =>
      rw [List.filter_cons_of_pos ha, List.filter_cons_of_pos (hR a b hab ha)]
      exact .cons hab ih
    | false =>
      rw [List.filter_cons_of_neg (by simp [ha]), List.filter_cons]
      -- what stands against a dropped element may be kept
      split
      · exact .cons_right ih
      · exact ih
  | @cons_right b l m _ ih =>
    rw [List.filter_cons]
    split
    · exact .cons_right ih
    · exact ih

/-- The values of entries stay in front of the new values of more entries. -/
theorem valueGroups_append_grows (es more : List Entry) :
    List.SublistForall₂ Group.GrowsTo (valueGroups es) (valueGroups (es ++ more)) := by
  have hgroups : valueGroups (es ++ more) =
      ((distinctBy (·.value) es).map fun e => ⟨e.value, namesWith (es ++ more) e.value⟩) ++
        ((distinctBy (·.value) more).filter (·.value ∉ es.map (·.value))).map
          fun e => ⟨e.value, namesWith (es ++ more) e.value⟩ := by
    rw [valueGroups, distinctBy_append, List.map_append]
  refine List.sublistForall₂_iff.2 ⟨_, ?_, hgroups ▸ List.sublist_append_left _ _⟩
  rw [valueGroups, List.forall₂_map_left_iff, List.forall₂_map_right_iff, List.forall₂_same]
  intro e _
  exact ⟨rfl, namesWith_append es more e.value ▸ List.prefix_append _ _⟩

/-- A group that has two names still has them when it has grown. -/
theorem sharedGroups_append_grows (es more : List Entry) :
    List.SublistForall₂ Group.GrowsTo (sharedGroups es) (sharedGroups (es ++ more)) := by
  refine sublistForall₂_filter (fun g g' hg hlen => ?_) (valueGroups_append_grows es more)
  have hle := hg.names_prefix.length_le
  simp only [decide_eq_true_eq] at hlen ⊢
  omega

/-- The duplicates of a table that begins with what another holds. -/
theorem Table.duplicates_grow {t t' : Table} (h : t.entries <+: t'.entries) :
    List.SublistForall₂ Group.GrowsTo t.duplicates t'.duplicates := by
  obtain ⟨more, hmore⟩ := h
  rw [duplicates_eq, duplicates_eq, ← hmore]
  exact sharedGroups_append_grows t.entries more

/-! ## more units -/

theorem offeredEntries_append (units more : List CompiledUnit) :
    offeredEntries (units ++ more) = offeredEntries units ++ offeredEntries more := by
  simp only [offeredEntries, resourceMembers, List.flatMap_append, List.filterMap_append]

/-- The table of more units begins with that of the first ones. -/
theorem entries_prefix_buildTable_append (units more : List CompiledUnit) :
    (buildTable units).entries <+: (buildTable (units ++ more)).entries := by
  rw [entries_buildTable, entries_buildTable, offeredEntries_append, distinctBy_append]
  exact List.prefix_append _ _

/-- A run fails if it finds a group. -/
theorem Status.ofGroups_eq_failure {count : Nat} : ofGroups count = .failure ↔ 0 < count := by
  cases count <;> simp [ofGroups]

/-- More units never hide a duplicate, whatever they hold: the groups come again
in the same order, each with its value and with the names it had in front, so
that a name stays reported and a failure stays a failure. -/
theorem duplicates_buildTable_append (units more : List CompiledUnit) :
    List.SublistForall₂ Group.GrowsTo (buildTable units).duplicates
      (buildTable (units ++ more)).duplicates ∧
    (buildTable units).duplicates.flatMap (·.names) ⊆
      (buildTable (units ++ more)).duplicates.flatMap (·.names) ∧
    (Status.ofGroups (buildTable units).duplicates.length = .failure →
      Status.ofGroups (buildTable (units ++ more)).duplicates.length = .failure) := by
  have hgrow := Table.duplicates_grow (entries_prefix_buildTable_append units more)
  obtain ⟨kept, hkept, hsublist⟩ := List.sublistForall₂_iff.1 hgrow
  refine ⟨hgrow, ?_, ?_⟩
  · intro name hname
    obtain ⟨g, hg, hname⟩ := List.mem_flatMap.1 hname
    obtain ⟨g', hg', hgrows⟩ := exists_of_forall₂ hkept hg
    exact List.mem_flatMap.2 ⟨g', hsublist.subset hg', hgrows.names_prefix.subset hname⟩
  · rw [Status.ofGroups_eq_failure, Status.ofGroups_eq_failure, hkept.length_eq]
    exact fun hpos => Nat.lt_of_lt_of_le hpos hsublist.length_le

/-- Units behind others that extend a group, begin one behind it, and name an entry
again with another text. -/
def furtherUnits : List CompiledUnit :=
  [accessorUnit "C" [("Keep", "Save"), ("Show", "Open")], accessorUnit "A" [("Save", "Store")]]

theorem duplicates_sharingUnits_append :
    Status.ofGroups (buildTable sharingUnits).duplicates.length = .failure ∧
      Status.ofGroups (buildTable (sharingUnits ++ furtherUnits)).duplicates.length = .failure ∧
      (buildTable sharingUnits).duplicates = [⟨"Save", ["P:A.Save", "P:B.Store"]⟩] ∧
      (buildTable (sharingUnits ++ furtherUnits)).duplicates =
        [⟨"Save", ["P:A.Save", "P:B.Store", "P:C.Keep"]⟩, ⟨"Open", ["P:A.Open", "P:C.Show"]⟩] := by
  have hstatus : Status.ofGroups (buildTable sharingUnits).duplicates.length = .failure := by
    decide +kernel
  refine ⟨hstatus, (duplicates_buildTable_append sharingUnits furtherUnits).2.2 hstatus, ?_, ?_⟩
  all_goals decide +kernel

end ResourceAudit
