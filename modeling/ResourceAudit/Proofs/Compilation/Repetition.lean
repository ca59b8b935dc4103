import ResourceAudit.Proofs.Compilation.Order

/-!
# ResourceAudit.Proofs.Compilation.Repetition

What is offered again and again.  A type with several declarations is scanned
once for each of them, every time with the members of all, and a project is
scanned once for each of its targets.  A table keeps the first entry of a name,
so what repeats an earlier part does not show in it: the table is the one in
which each accessor is scanned once, where it is first declared as a class, a
record or a structure (`Compilation.entriesOnce`), and a unit that brings no new
name changes nothing (`buildTable_absorbs_repetition`).
-/

namespace ResourceAudit

/-! ## accessors, each once -/

namespace Compilation

/-- The accessors of a compilation, each once: where it is first declared in a
kind that offers resources. -/
def accessorsOnce (c : Compilation) : List TypeSymbol :=
  (distinctBy (·.symbol.id) (c.unit.declared.filter (·.OffersResources))).map (·.symbol)

/-- The entries of the accessors, each once. -/
def entriesOnce (c : Compilation) : List Entry := c.accessorsOnce.flatMap (·.entries)

variable {c : Compilation}

/-- Declarations of one ID are scanned with one symbol. -/
theorem symbol_eq_of_id_eq {d d' : DeclaredType} (hd : d ∈ c.unit.declared)
    (hd' : d' ∈ c.unit.declared) (h : d.symbol.id = d'.symbol.id) : d.symbol = d'.symbol :=
  List.inj_on_of_nodup_map c.isMerging.nodup_ids (mem_declared.1 hd).1 (mem_declared.1 hd').1 h

theorem nodup_accessorsOnce : c.accessorsOnce.Nodup := by
  have hids : (c.accessorsOnce.map (·.id)).Nodup := by
    rw [accessorsOnce, List.map_map]
    exact nodup_map_distinctBy _ _
  exact .of_map _ hids

/-- No accessor gets lost. -/
theorem mem_accessorsOnce {s : TypeSymbol} : s ∈ c.accessorsOnce ↔ s ∈ c.unit.accessors := by
  have haccessors : c.unit.accessors =
      (c.unit.declared.filter (·.OffersResources)).map (·.symbol) := by
    simp only [CompiledUnit.accessors, ← DeclaredType.isAccessor_iff, Bool.decide_eq_true]
  rw [haccessors, accessorsOnce]
  constructor
  · intro h
    exact ((distinctBy_sublist _ _).map _).subset h
  · intro h
    obtain ⟨d, hd, rfl⟩ := List.mem_map.1 h
    -- the declaration that is kept for its ID has the same symbol
    have hid : d.symbol.id ∈ (distinctBy (·.symbol.id)
        (c.unit.declared.filter (·.OffersResources))).map (·.symbol.id) := by
      rw [mem_map_distinctBy]
      exact List.mem_map_of_mem hd
    obtain ⟨kept, hkept, hid⟩ := List.mem_map.1 hid
    have hmem := (distinctBy_sublist _ _).subset hkept
    rw [← symbol_eq_of_id_eq (List.mem_of_mem_filter hmem) (List.mem_of_mem_filter hd) hid]
    exact List.mem_map_of_mem hkept

theorem mem_entries_of_mem_entriesOnce {e : Entry} (h : e ∈ c.entriesOnce) : e ∈ c.unit.entries := by
  obtain ⟨s, hs, he⟩ := List.mem_flatMap.1 h
  exact List.mem_flatMap.2 ⟨s, mem_accessorsOnce.1 hs, he⟩

/-- To scan an accessor again brings no new name. -/
theorem distinctBy_entries (c : Compilation) :
    distinctBy (·.name) c.unit.entries = distinctBy (·.name) c.entriesOnce := by
  have hentries : c.unit.entries =
      (c.unit.declared.filter (·.OffersResources)).flatMap (·.symbol.entries) := by
    simp only [CompiledUnit.entries, CompiledUnit.accessors, List.flatMap_map,
      ← DeclaredType.isAccessor_iff, Bool.decide_eq_true]
  rw [hentries, entriesOnce, accessorsOnce, List.flatMap_map]
  refine distinctBy_flatMap_distinctBy _ _ fun d hd d' hd' hid => ?_
  rw [symbol_eq_of_id_eq (List.mem_of_mem_filter hd) (List.mem_of_mem_filter hd') hid]

end Compilation

/-! ## tables -/

/-- Tables of entries that are not blank are the same if the first entries of the
names are. -/
theorem Table.ofEntries_congr {es es' : List Entry} (hes : ∀ e ∈ es, e.isBlank = false)
    (hes' : ∀ e ∈ es', e.isBlank = false) (h : distinctBy (·.name) es = distinctBy (·.name) es') :
    ofEntries es = ofEntries es' := by
  have hall : ∀ es : List Entry, (∀ e ∈ es, e.isBlank = false) →
      (ofEntries es).entries = distinctBy (·.name) es := by
    intro es hes
    rw [entries_ofEntries, keptEntries, List.filter_eq_self.2 (by simpa using hes)]
  have hentries : (ofEntries es).entries = (ofEntries es').entries := by
    rw [hall es hes, hall es' hes', h]
  cases hes : ofEntries es
  cases hes' : ofEntries es'
  simpa [hes, hes'] using hentries

theorem isBlank_of_mem_collectEntries {units : List CompiledUnit} {e : Entry}
    (h : e ∈ collectEntries units) : e.isBlank = false :=
  isBlank_of_mem_offeredEntries (collectEntries_eq units ▸ h)

/-- What repeats does not show in a table.  The table of compilations is that of
their accessors, each scanned once, where it is first declared as a class, a
record or a structure, and a unit whose names are all there before leaves the
table and its duplicates as they are. -/
theorem buildTable_absorbs_repetition :
    (∀ cs : List Compilation,
      buildTable (cs.map (·.unit)) = Table.ofEntries (cs.flatMap (·.entriesOnce)) ∧
      ∀ c ∈ cs, c.accessorsOnce.Nodup ∧ ∀ s, s ∈ c.accessorsOnce ↔ s ∈ c.unit.accessors) ∧
    (∀ (units : List CompiledUnit) (u : CompiledUnit),
      (∀ e ∈ u.entries, e.name ∈ (collectEntries units).map (·.name)) →
        buildTable (units ++ [u]) = buildTable units ∧
        (buildTable (units ++ [u])).duplicates = (buildTable units).duplicates) := by
  constructor
  · intro cs
    refine ⟨?_, fun c _ => ⟨Compilation.nodup_accessorsOnce, fun s => Compilation.mem_accessorsOnce⟩⟩
    refine Table.ofEntries_congr (fun e he => isBlank_of_mem_collectEntries he) ?_ ?_
    · intro e he
      obtain ⟨c, hc, he⟩ := List.mem_flatMap.1 he
      have hcollected : e ∈ collectEntries (cs.map (·.unit)) :=
        List.mem_flatMap.2 ⟨c.unit, List.mem_map_of_mem hc, Compilation.mem_entries_of_mem_entriesOnce he⟩
      exact isBlank_of_mem_collectEntries hcollected
    · rw [collectEntries, List.flatMap_map]
      exact distinctBy_flatMap_congr fun c _ => c.distinctBy_entries
  · intro units u hnames
    have htable : buildTable (units ++ [u]) = buildTable units := by
      refine Table.ofEntries_congr (fun e he => isBlank_of_mem_collectEntries he)
        (fun e he => isBlank_of_mem_collectEntries he) ?_
      rw [collectEntries, List.flatMap_append, List.flatMap_singleton, ← collectEntries]
      exact distinctBy_append_of_subset _ hnames
    exact ⟨htable, by rw [htable]⟩

/-- An accessor in two parts, compiled for two targets. -/
theorem buildTable_partialFiles :
    (∀ e ∈ (⟨"App", some "net472", partialFiles⟩ : Compilation).unit.entries, e.name ∈
      (collectEntries [(⟨"App", some "net8.0", partialFiles⟩ : Compilation).unit]).map (·.name)) ∧
    buildTable [(⟨"App", some "net8.0", partialFiles⟩ : Compilation).unit,
        (⟨"App", some "net472", partialFiles⟩ : Compilation).unit] =
      Table.ofEntries (⟨"App", some "net8.0", partialFiles⟩ : Compilation).entriesOnce := by
  have hnames : ∀ e ∈ (⟨"App", some "net472", partialFiles⟩ : Compilation).unit.entries, e.name ∈
      (collectEntries [(⟨"App", some "net8.0", partialFiles⟩ : Compilation).unit]).map (·.name) := by
    decide +kernel
  obtain ⟨hcompilations, hunits⟩ := buildTable_absorbs_repetition
  refine ⟨hnames, (hunits [_] _ hnames).1.trans ?_⟩
  have h := (hcompilations [⟨"App", some "net8.0", partialFiles⟩]).1
  simpa only [List.map_cons, List.map_nil, List.flatMap_singleton] using h

end ResourceAudit
