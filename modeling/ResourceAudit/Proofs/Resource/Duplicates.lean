import ResourceAudit.Compilation
import ResourceAudit.Proofs.Resource.Grouping
import ResourceAudit.Report

/-!
# ResourceAudit.Proofs.Resource.Duplicates

The duplicates of compiled units, told from the members of their types alone.
Every declaration of a class, a record or a structure whose symbol has a member
`ResourceManager` offers the entries of its static members, scaffolding left
out (`offeredEntries`); a type with several declarations offers them several
times.  The first entry of a name counts, and the values that several names
have then are what is reported (`duplicates_buildTable`).
-/

namespace ResourceAudit

open CSharp (TypeKind)

/-! ## what units offer -/

/-- Whether a declaration is that of a type whose members stand for resources. -/
def DeclaredType.OffersResources (d : DeclaredType) : Prop :=
  (d.kind = .class ∨ d.kind = .record ∨ d.kind = .struct) ∧
    ∃ m ∈ d.symbol.members, m.name = "ResourceManager"

instance (d : DeclaredType) : Decidable d.OffersResources := by
  unfold DeclaredType.OffersResources
  infer_instance

/-- The members of units that stand for resources: in the order of the units,
of their declarations and of the members. -/
def resourceMembers (units : List CompiledUnit) : List MemberSymbol :=
  units.flatMap fun u => u.declared.flatMap fun d =>
    if d.OffersResources then
      d.symbol.members.filter fun m => m.isStatic ∧
        m.name ∉ ["s_resourceManager", "ResourceManager", "Culture", "GetResourceString"]
    else []

/-- The entries that the documentation of these members gives. -/
def offeredEntries (units : List CompiledUnit) : List Entry :=
  (resourceMembers units).filterMap fun m => entryOfMarkup m.documentation

theorem DeclaredType.isAccessor_iff (d : DeclaredType) : d.isAccessor = true ↔ d.OffersResources := by
  have hkind : mayBeAccessor d.kind = true ↔
      (d.kind = .class ∨ d.kind = .record ∨ d.kind = .struct) := by
    cases d.kind <;> simp [mayBeAccessor]
  rw [isAccessor, Bool.and_eq_true, hkind, OffersResources]
  simp [TypeSymbol.hasMember, TypeSymbol.memberNames, accessorMember]

theorem CompiledUnit.entries_eq (u : CompiledUnit) :
    u.entries = u.declared.flatMap fun d => if d.OffersResources then d.symbol.entries else [] := by
  rw [entries, accessors, List.flatMap_map]
  induction u.declared with
  | nil => rfl
  | cons d rest ih =>
    rw [List.filter_cons, List.flatMap_cons, ← ih]
    by_cases hd : d.OffersResources
    · rw [if_pos hd, if_pos (d.isAccessor_iff.2 hd), List.flatMap_cons]
    · rw [if_neg hd, if_neg (mt d.isAccessor_iff.1 hd), List.nil_append]

theorem TypeSymbol.entries_eq (t : TypeSymbol) :
    t.entries = (t.members.filter fun m => m.isStatic ∧
      m.name ∉ ["s_resourceManager", "ResourceManager", "Culture", "GetResourceString"]).filterMap
        fun m => entryOfMarkup m.documentation := by
  rw [entries]
  congr! 3 with m
  simp [MemberSymbol.isResource, scaffolding]

theorem collectEntries_eq (units : List CompiledUnit) : collectEntries units = offeredEntries units := by
  simp only [collectEntries, offeredEntries, resourceMembers, List.filterMap_flatMap,
    CompiledUnit.entries_eq, TypeSymbol.entries_eq]
  congr! 3 with u
  funext d
  split <;> rfl

theorem isBlank_of_mem_offeredEntries {units : List CompiledUnit} {e : Entry}
    (h : e ∈ offeredEntries units) : e.isBlank = false := by
  obtain ⟨m, -, hm⟩ := List.mem_filterMap.1 h
  exact isBlank_of_entryOfMarkup hm

/-- The table of units holds the first entry of each name. -/
theorem entries_buildTable (units : List CompiledUnit) :
    (buildTable units).entries = distinctBy (·.name) (offeredEntries units) := by
  have hall : (offeredEntries units).filter (!·.isBlank) = offeredEntries units := by
    rw [List.filter_eq_self]
    intro e he
    rw [isBlank_of_mem_offeredEntries he, Bool.not_false]
  rw [buildTable, collectEntries_eq, Table.entries_ofEntries, keptEntries, hall]

/-! ## first values -/

/-- The value of the first entry with a name. -/
def firstValue? (es : List Entry) (name : String) : Option String :=
  (es.find? (·.name = name)).map (·.value)

/-- The first values of the names are the values of the entries that stay. -/
theorem firstValue?_eq_some {es : List Entry} {name value : String} :
    firstValue? es name = some value ↔
      ∃ e ∈ distinctBy (·.name) es, e.name = name ∧ e.value = value := by
  rw [firstValue?, ← find?_distinctBy, Option.map_eq_some_iff]
  constructor
  · rintro ⟨e, he, hv⟩
    exact ⟨e, List.mem_of_find?_eq_some he, by simpa using List.find?_some he, hv⟩
  · rintro ⟨e, he, hn, hv⟩
    have hsome : ((distinctBy (·.name) es).find? (·.name = name)).isSome := by
      rw [List.find?_isSome]
      exact ⟨e, he, by simpa using hn⟩
    obtain ⟨found, hfound⟩ := Option.isSome_iff_exists.1 hsome
    have hname : found.name = name := by simpa using List.find?_some hfound
    have heq : found = e := List.inj_on_of_nodup_map (nodup_map_distinctBy _ _)
      (List.mem_of_find?_eq_some hfound) he (hname.trans hn.symm)
    exact ⟨found, hfound, heq ▸ hv⟩

/-- Two names have one first value exactly if two entries that stay show it. -/
theorem exists_firstValue? {es : List Entry} {name : String} :
    (∃ e ∈ distinctBy (·.name) es, e.name = name ∧
      ∃ other ∈ distinctBy (·.name) es, other.name ≠ name ∧ other.value = e.value) ↔
    ∃ value, firstValue? es name = some value ∧
      ∃ other, other ≠ name ∧ firstValue? es other = some value := by
  simp only [firstValue?_eq_some]
  constructor
  · rintro ⟨e, he, hn, other, hother, hne, hv⟩
    exact ⟨e.value, ⟨e, he, hn, rfl⟩, other.name, hne, other, hother, rfl, hv⟩
  · rintro ⟨value, ⟨e, he, hn, rfl⟩, _, hne, other, hother, rfl, hv⟩
    exact ⟨e, he, hn, other, hother, hne, hv⟩

/-! ## the report -/

/-- What is reported on units: the values that several names have among the
first entries of their names.  So a name is reported exactly if a different name
has the same first value, none is reported twice, and the status is that of a
failure exactly if there are two such names. -/
theorem duplicates_buildTable (units : List CompiledUnit) :
    (buildTable units).duplicates = sharedGroups (distinctBy (·.name) (offeredEntries units)) ∧
    (∀ name, name ∈ (buildTable units).duplicates.flatMap (·.names) ↔
      ∃ value, firstValue? (offeredEntries units) name = some value ∧
        ∃ other, other ≠ name ∧ firstValue? (offeredEntries units) other = some value) ∧
    ((buildTable units).duplicates.flatMap (·.names)).Nodup ∧
    (Status.ofGroups (buildTable units).duplicates.length = .failure ↔
      ∃ name other value, name ≠ other ∧ firstValue? (offeredEntries units) name = some value ∧
        firstValue? (offeredEntries units) other = some value) := by
  have hdup : (buildTable units).duplicates =
      sharedGroups (distinctBy (·.name) (offeredEntries units)) := by
    rw [Table.duplicates_eq, entries_buildTable]
  have hnodup := nodup_map_distinctBy (fun e : Entry => e.name) (offeredEntries units)
  have hreported : ∀ name, name ∈ (buildTable units).duplicates.flatMap (·.names) ↔
      ∃ value, firstValue? (offeredEntries units) name = some value ∧
        ∃ other, other ≠ name ∧ firstValue? (offeredEntries units) other = some value := by
    intro name
    rw [hdup, mem_reported hnodup, exists_firstValue?]
  refine ⟨hdup, hreported, hdup ▸ nodup_reported hnodup, ?_⟩
  -- a group has a name, so there is a group exactly if a name is reported
  have hstatus : Status.ofGroups (buildTable units).duplicates.length = .failure ↔
      ∃ name, name ∈ (buildTable units).duplicates.flatMap (·.names) := by
    cases hgroups : (buildTable units).duplicates with
    | nil => simp [Status.ofGroups]
    | cons g rest =>
      have hg : g ∈ sharedGroups (distinctBy (·.name) (offeredEntries units)) := by
        rw [← hdup, hgroups]
        exact List.mem_cons_self
      have hlen := (isGrouping_sharedGroups hnodup).two_le_length g hg
      obtain ⟨name, hname⟩ := List.exists_mem_of_length_pos (l := g.names) (by omega)
      simp only [Status.ofGroups, List.length_cons, Nat.add_eq_zero_iff, Nat.succ_ne_self, and_false,
        if_false, true_iff, List.flatMap_cons]
      exact ⟨name, List.mem_append_left _ hname⟩
  rw [hstatus]
  constructor
  · rintro ⟨name, hname⟩
    obtain ⟨value, hv, other, hne, hother⟩ := (hreported name).1 hname
    exact ⟨name, other, value, hne.symm, hv, hother⟩
  · rintro ⟨name, other, value, hne, hv, hother⟩
    exact ⟨name, (hreported name).2 ⟨value, hv, other, hne.symm, hother⟩⟩

end ResourceAudit
