import ResourceAudit.Compilation
import ResourceAudit.Proofs.Distinct
import Mathlib.Data.List.Forall2
import Mathlib.Data.List.Induction

/-!
# ResourceAudit.Proofs.Compilation.Merging

The symbols that declarations are merged into.  A symbol table grows at its end
only: the IDs of its symbols stay where they are (`ids_addDeclaration`), so the
position that a declaration was given while the table was growing still leads to
its own symbol when the table is complete.

`IsMerging` says what it is to be the table of some declarations.  One more
declaration keeps it (`IsMerging.add`), so every table has it
(`isMerging_ofDeclarations`), and with it every compilation
(`Compilation.merges_declarations`).
-/

namespace ResourceAudit

/-- The members of the declarations with the given ID, in order. -/
def membersWith (ds : List TypeDeclaration) (id : String) : List MemberSymbol :=
  (ds.filter (·.id = id)).flatMap (·.members)

theorem membersWith_concat (ds : List TypeDeclaration) (d : TypeDeclaration) (id : String) :
    membersWith (ds ++ [d]) id =
      if d.id = id then membersWith ds id ++ d.members else membersWith ds id := by
  simp only [membersWith, List.filter_append, List.flatMap_append]
  split <;> simp_all

theorem membersWith_eq_nil {ds : List TypeDeclaration} {id : String} (h : id ∉ ds.map (·.id)) :
    membersWith ds id = [] := by
  have hnone : ds.filter (·.id = id) = [] := by
    rw [List.filter_eq_nil_iff]
    intro d hd hid
    exact h (List.mem_map.2 ⟨d, hd, of_decide_eq_true hid⟩)
  rw [membersWith, hnone, List.flatMap_nil]

/-! ## one more declaration -/

/-- A declaration leaves the IDs where they are and adds its own at the end, if
that is new. -/
theorem ids_addDeclaration (symbols : List TypeSymbol) (d : TypeDeclaration) :
    (addDeclaration symbols d).map (·.id) =
      if d.id ∈ symbols.map (·.id) then symbols.map (·.id) else symbols.map (·.id) ++ [d.id] := by
  induction symbols with
  | nil => simp [addDeclaration]
  | cons s rest ih =>
    rw [addDeclaration]
    by_cases hs : s.id = d.id
    · simp [hs]
    · rw [if_neg hs, List.map_cons, ih]
      split <;> simp_all [Ne.symm hs]

theorem ids_prefix_addDeclaration (symbols : List TypeSymbol) (d : TypeDeclaration) :
    symbols.map (·.id) <+: (addDeclaration symbols d).map (·.id) := by
  rw [ids_addDeclaration]
  split
  · exact List.prefix_rfl
  · exact List.prefix_append _ _

/-- The position that a declaration is given is that of its ID, once it has been
added. -/
theorem getElem?_positionOf (symbols : List TypeSymbol) (d : TypeDeclaration) :
    ((addDeclaration symbols d).map (·.id))[positionOf symbols d]? = some d.id := by
  induction symbols with
  | nil => rfl
  | cons s rest ih =>
    rw [addDeclaration, positionOf, List.findIdx_cons]
    by_cases hs : s.id = d.id
    · simp [hs]
    · rw [if_neg hs, decide_eq_false hs, cond_false, List.map_cons, List.getElem?_cons_succ]
      exact ih

/-- A symbol after one more declaration is one from before with another ID, the
one from before with the ID of the declaration and its members added, or a new
one. -/
theorem mem_addDeclaration {symbols : List TypeSymbol} {d : TypeDeclaration} {s : TypeSymbol}
    (hn : (symbols.map (·.id)).Nodup) (h : s ∈ addDeclaration symbols d) :
    (s ∈ symbols ∧ s.id ≠ d.id) ∨
      (∃ old ∈ symbols, old.id = d.id ∧ s = { old with members := old.members ++ d.members }) ∨
      (d.id ∉ symbols.map (·.id) ∧ s = ⟨d.name, d.id, d.members⟩) := by
  induction symbols with
  | nil => simpa [addDeclaration] using h
  | cons first rest ih =>
    rw [List.map_cons, List.nodup_cons] at hn
    rw [addDeclaration] at h
    by_cases hfirst : first.id = d.id
    · rw [if_pos hfirst, List.mem_cons] at h
      rcases h with rfl | hrest
      · exact .inr (.inl ⟨first, List.mem_cons_self, hfirst, rfl⟩)
      · refine .inl ⟨List.mem_cons_of_mem _ hrest, fun hid => hn.1 ?_⟩
        exact List.mem_map.2 ⟨s, hrest, hid.trans hfirst.symm⟩
    · rw [if_neg hfirst, List.mem_cons] at h
      rcases h with rfl | hrest
      · exact .inl ⟨List.mem_cons_self, hfirst⟩
      · rcases ih hn.2 hrest with ⟨hold, hne⟩ | ⟨old, hold, hid, hs⟩ | ⟨hnew, hs⟩
        · exact .inl ⟨List.mem_cons_of_mem _ hold, hne⟩
        · exact .inr (.inl ⟨old, List.mem_cons_of_mem _ hold, hid, hs⟩)
        · exact .inr (.inr ⟨by simpa [Ne.symm hfirst] using hnew, hs⟩)

/-! ## tables of declarations -/

/-- Being a reference to the symbol of a declaration. -/
def SymbolTable.Refers (t : SymbolTable) (d : TypeDeclaration) (r : DeclarationRef) : Prop :=
  r.kind = d.kind ∧ (t.symbols.map (·.id))[r.position]? = some d.id

/-- Being the symbols and the references of some declarations. -/
structure IsMerging (ds : List TypeDeclaration) (t : SymbolTable) : Prop where
  /-- Each ID has one symbol, in the order in which the IDs are declared first. -/
  ids_eq : t.symbols.map (·.id) = (distinctBy (·.id) ds).map (·.id)
  /-- A symbol has the members of all declarations with its ID. -/
  members_eq : ∀ s ∈ t.symbols, s.members = membersWith ds s.id
  /-- Each declaration has a reference to its symbol. -/
  references : List.Forall₂ t.Refers ds t.references

theorem isMerging_empty : IsMerging [] .empty := ⟨rfl, by simp [SymbolTable.empty], .nil⟩

namespace IsMerging

variable {ds : List TypeDeclaration} {t : SymbolTable}

theorem nodup_ids (h : IsMerging ds t) : (t.symbols.map (·.id)).Nodup := by
  rw [h.ids_eq]
  exact nodup_map_distinctBy _ _

theorem mem_ids (h : IsMerging ds t) {id : String} :
    id ∈ t.symbols.map (·.id) ↔ id ∈ ds.map (·.id) := by
  rw [h.ids_eq, mem_map_distinctBy]

/-- One more declaration makes the table that of one more declaration. -/
theorem add (h : IsMerging ds t) (d : TypeDeclaration) : IsMerging (ds ++ [d]) (t.add d) where
  ids_eq := by
    rw [SymbolTable.add, ids_addDeclaration, distinctBy_concat]
    by_cases hid : d.id ∈ ds.map (·.id)
    · rw [if_pos (h.mem_ids.2 hid), if_pos hid, h.ids_eq]
    · rw [if_neg (mt h.mem_ids.1 hid), if_neg hid, h.ids_eq, List.map_append]
      rfl
  members_eq s hs := by
    rcases mem_addDeclaration h.nodup_ids hs with ⟨hold, hne⟩ | ⟨old, hold, hid, rfl⟩ | ⟨hnew, rfl⟩
    · rw [membersWith_concat, if_neg (Ne.symm hne), h.members_eq s hold]
    · rw [membersWith_concat, if_pos hid.symm, h.members_eq old hold]
    · rw [membersWith_concat, if_pos rfl, membersWith_eq_nil (mt h.mem_ids.2 hnew), List.nil_append]
  references := by
    -- the IDs that were there before have kept their positions
    have hkept : List.Forall₂ (t.add d).Refers ds t.references := by
      refine h.references.imp fun _ r href => ⟨href.1, ?_⟩
      obtain ⟨new, hnew⟩ := ids_prefix_addDeclaration t.symbols d
      have hlt : r.position < (t.symbols.map (·.id)).length := (List.getElem?_eq_some_iff.1 href.2).1
      rw [SymbolTable.add, ← hnew, List.getElem?_append_left hlt]
      exact href.2
    exact List.rel_append hkept (.cons ⟨rfl, getElem?_positionOf t.symbols d⟩ .nil)

end IsMerging

/-- The table of declarations is what they are merged into. -/
theorem isMerging_ofDeclarations (ds : List TypeDeclaration) :
    IsMerging ds (.ofDeclarations ds) := by
  induction ds using List.reverseRecOn with
  | nil => exact isMerging_empty
  | append_singleton ds d ih =>
    rw [SymbolTable.ofDeclarations, List.foldl_append]
    exact ih.add d

/-! ## compilations -/

/-- Each declaration with a reference is there with its kind and its symbol. -/
theorem SymbolTable.Refers.declared {t : SymbolTable} {ds : List TypeDeclaration}
    (h : List.Forall₂ t.Refers ds t.references) :
    List.Forall₂ (fun d declared => declared.kind = d.kind ∧ declared.symbol ∈ t.symbols ∧
      declared.symbol.id = d.id) ds t.declared := by
  rw [SymbolTable.declared]
  generalize t.references = references at h
  induction h with
  | nil => exact .nil
  | cons href _ ih =>
    obtain ⟨hkind, hid⟩ := href
    rw [List.getElem?_map, Option.map_eq_some_iff] at hid
    obtain ⟨s, hs, hid⟩ := hid
    rw [List.filterMap_cons, hs]
    exact .cons ⟨hkind, List.mem_of_getElem? hs, hid⟩ ih

/-- The declarations of a compilation are merged by their IDs: the symbols have
distinct IDs, in the order in which these are declared first; every declaration
keeps a position at which its own symbol is, and is scanned with its kind and
that symbol; and a symbol has the members of the declarations with its ID, one
after the other. -/
theorem Compilation.merges_declarations (c : Compilation) :
    (c.symbols.map (·.id)).Nodup ∧
    c.symbols.map (·.id) = (distinctBy (·.id) c.declarations).map (·.id) ∧
    List.Forall₂ (fun d r => r.kind = d.kind ∧ ∃ h : r.position < c.symbols.length,
      c.symbols[r.position].id = d.id) c.declarations c.symbolTable.references ∧
    List.Forall₂ (fun d declared => declared.kind = d.kind ∧ declared.symbol ∈ c.symbols ∧
      declared.symbol.id = d.id) c.declarations c.unit.declared ∧
    ∀ s ∈ c.symbols, s.members = membersWith c.declarations s.id := by
  have h : IsMerging c.declarations c.symbolTable := isMerging_ofDeclarations c.declarations
  refine ⟨h.nodup_ids, h.ids_eq, h.references.imp fun d r href => ⟨href.1, ?_⟩,
    SymbolTable.Refers.declared h.references, h.members_eq⟩
  obtain ⟨s, hs, hid⟩ := Option.map_eq_some_iff.1 (List.getElem?_map .. ▸ href.2)
  obtain ⟨hlt, rfl⟩ := List.getElem?_eq_some_iff.1 hs
  exact ⟨hlt, hid⟩

end ResourceAudit
