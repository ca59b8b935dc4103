import ResourceAudit.Proofs.Compilation.Merging
import ResourceAudit.Proofs.Resource.Order

/-!
# ResourceAudit.Proofs.Compilation.Order

What does not depend on the order of source files.  The symbols of a compilation
come from the parts of each type, wherever these are declared: `SameParts` says
that two lists of declarations have the same ones, up to order and to how the
members of a type are spread over its parts.  Permuted files have the same
parts, and so have files that are renamed or split (`SameParts.split`).

Compilations with the same parts have the same types with the same members, and
select the same accessors (`exists_accessor`); what is read from these is then
the same, and so is the report where every name has one value
(`Compilation.alike_of_sameParts`).
-/

namespace ResourceAudit

/-! ## parts of types -/

/-- Declaring the same types in the same kinds, with the same members in some
order. -/
structure SameParts (ds ds' : List TypeDeclaration) : Prop where
  kinds : ∀ kind id, (∃ d ∈ ds, d.kind = kind ∧ d.id = id) ↔ ∃ d ∈ ds', d.kind = kind ∧ d.id = id
  members : ∀ id, (membersWith ds id).Perm (membersWith ds' id)

namespace SameParts

variable {ds ds' : List TypeDeclaration}

theorem symm (h : SameParts ds ds') : SameParts ds' ds :=
  ⟨fun kind id => (h.kinds kind id).symm, fun id => (h.members id).symm⟩

theorem of_perm (h : ds.Perm ds') : SameParts ds ds' where
  kinds _ _ := by simp only [h.mem_iff]
  members _ := (h.filter _).flatMap_right _

/-- A declaration may be split into two parts, with its members spread over
both. -/
theorem split (before after : List TypeDeclaration) (d : TypeDeclaration)
    (front rest : List MemberSymbol) (h : d.members.Perm (front ++ rest)) :
    SameParts (before ++ d :: after)
      (before ++ { d with members := front } :: { d with members := rest } :: after) where
  kinds kind id := by
    simp [or_and_right, exists_or]
  members id := by
    by_cases hid : d.id = id
    · simp only [membersWith, List.filter_append, List.flatMap_append, List.filter_cons, hid,
        decide_true, if_true, List.flatMap_cons, ← List.append_assoc front]
      exact (h.append_right _).append_left _
    · simp [membersWith, hid]

theorem mem_ids (h : SameParts ds ds') {id : String} :
    id ∈ ds.map (·.id) ↔ id ∈ ds'.map (·.id) := by
  have hkinds : ∀ ds : List TypeDeclaration,
      id ∈ ds.map (·.id) ↔ ∃ kind, ∃ d ∈ ds, d.kind = kind ∧ d.id = id := by
    simp
  rw [hkinds, hkinds]
  exact exists_congr fun kind => h.kinds kind id

end SameParts

/-! ## accessors -/

theorem exists_of_forall₂ {α β : Type} {R : α → β → Prop} {l : List α} {l' : List β}
    (h : List.Forall₂ R l l') {a : α} (ha : a ∈ l) : ∃ b ∈ l', R a b := by
  induction h with
  | nil => cases ha
  | cons hab _ ih =>
    rcases List.mem_cons.1 ha with rfl | ha
    · exact ⟨_, List.mem_cons_self, hab⟩
    · obtain ⟨b, hb, hR⟩ := ih ha
      exact ⟨b, List.mem_cons_of_mem _ hb, hR⟩

namespace Compilation

variable {c c' : Compilation}

theorem isMerging (c : Compilation) : IsMerging c.declarations c.symbolTable :=
  isMerging_ofDeclarations c.declarations

/-- A symbol is scanned in each kind in which it is declared. -/
theorem mem_declared {declared : DeclaredType} :
    declared ∈ c.unit.declared ↔
      declared.symbol ∈ c.symbols ∧
        ∃ d ∈ c.declarations, d.kind = declared.kind ∧ d.id = declared.symbol.id := by
  have hdeclared := SymbolTable.Refers.declared c.isMerging.references
  constructor
  · intro h
    obtain ⟨d, hd, hkind, hs, hid⟩ := exists_of_forall₂ hdeclared.flip h
    exact ⟨hs, d, hd, hkind.symm, hid.symm⟩
  · rintro ⟨hs, d, hd, hkind, hid⟩
    obtain ⟨other, hother, hkind', hs', hid'⟩ := exists_of_forall₂ hdeclared hd
    have hsymbol : other.symbol = declared.symbol :=
      List.inj_on_of_nodup_map c.isMerging.nodup_ids hs' hs (hid'.trans hid)
    have heq : other = declared := by
      cases other
      cases declared
      simp_all
    exact heq ▸ hother

/-- An accessor is a symbol with the member that makes it one, declared in a
kind that may be one. -/
theorem mem_accessors {s : TypeSymbol} :
    s ∈ c.unit.accessors ↔ s ∈ c.symbols ∧ s.hasMember accessorMember = true ∧
      ∃ kind, mayBeAccessor kind = true ∧ ∃ d ∈ c.declarations, d.kind = kind ∧ d.id = s.id := by
  simp only [CompiledUnit.accessors, List.mem_map, List.mem_filter, DeclaredType.isAccessor,
    Bool.and_eq_true, mem_declared]
  constructor
  · rintro ⟨declared, ⟨⟨hs, hd⟩, hkind, hmember⟩, rfl⟩
    exact ⟨hs, hmember, declared.kind, hkind, hd⟩
  · rintro ⟨hs, hmember, kind, hkind, hd⟩
    exact ⟨⟨kind, s⟩, ⟨⟨hs, hd⟩, hkind, hmember⟩, rfl⟩

end Compilation

theorem TypeSymbol.hasMember_of_perm {s s' : TypeSymbol} (h : s.members.Perm s'.members)
    (name : String) : s.hasMember name = s'.hasMember name := by
  simp [hasMember, memberNames, h.mem_iff]

theorem TypeSymbol.entries_perm {s s' : TypeSymbol} (h : s.members.Perm s'.members) :
    s.entries.Perm s'.entries := (h.filter _).filterMap _

namespace Compilation

variable {c c' : Compilation} (h : SameParts c.declarations c'.declarations)

include h

theorem mem_ids_of_sameParts (id : String) :
    id ∈ c.symbols.map (·.id) ↔ id ∈ c'.symbols.map (·.id) := by
  have hc : id ∈ c.symbols.map (·.id) ↔ id ∈ c.declarations.map (·.id) := c.isMerging.mem_ids
  have hc' : id ∈ c'.symbols.map (·.id) ↔ id ∈ c'.declarations.map (·.id) := c'.isMerging.mem_ids
  rw [hc, hc', h.mem_ids]

theorem members_perm_of_sameParts {s s' : TypeSymbol} (hs : s ∈ c.symbols) (hs' : s' ∈ c'.symbols)
    (hid : s.id = s'.id) : s.members.Perm s'.members := by
  rw [c.isMerging.members_eq s hs, c'.isMerging.members_eq s' hs', hid]
  exact h.members s'.id

/-- An accessor is one in any compilation with the same parts. -/
theorem exists_accessor {s : TypeSymbol} (hs : s ∈ c.unit.accessors) :
    ∃ s' ∈ c'.unit.accessors, s'.id = s.id ∧ s.members.Perm s'.members := by
  obtain ⟨hs, hmember, kind, hkind, hd⟩ := mem_accessors.1 hs
  have hid : s.id ∈ c'.symbols.map (·.id) :=
    (mem_ids_of_sameParts h s.id).1 (List.mem_map_of_mem hs)
  obtain ⟨s', hs', hid'⟩ := List.mem_map.1 hid
  have hperm := members_perm_of_sameParts h hs hs' hid'.symm
  refine ⟨s', mem_accessors.2 ⟨hs', ?_, kind, hkind, ?_⟩, hid', hperm⟩
  · rw [← TypeSymbol.hasMember_of_perm hperm, hmember]
  · rw [hid']
    exact (h.kinds kind s.id).1 hd

/-- What one compilation offers is offered by the other. -/
theorem entries_subset_of_sameParts : c.unit.entries ⊆ c'.unit.entries := by
  intro e he
  obtain ⟨s, hs, he⟩ := List.mem_flatMap.1 he
  obtain ⟨s', hs', -, hperm⟩ := exists_accessor h hs
  exact List.mem_flatMap.2 ⟨s', hs', (TypeSymbol.entries_perm hperm).subset he⟩

omit h

/-- Having the same types with the same members, the same accessors, and, next
to any other units, the same duplicates where every name has one value. -/
structure Alike (c c' : Compilation) : Prop where
  ids : ∀ id, id ∈ c.symbols.map (·.id) ↔ id ∈ c'.symbols.map (·.id)
  members : ∀ s ∈ c.symbols, ∀ s' ∈ c'.symbols, s.id = s'.id → s.members.Perm s'.members
  accessors : ∀ id, id ∈ c.unit.accessors.map (·.id) ↔ id ∈ c'.unit.accessors.map (·.id)
  duplicates : ∀ before after : List CompiledUnit,
    IsConsistent (collectEntries (before ++ c.unit :: after)) →
      groupSet (buildTable (before ++ c.unit :: after)).duplicates =
        groupSet (buildTable (before ++ c'.unit :: after)).duplicates

theorem alike_of_sameParts {c c' : Compilation} (h : SameParts c.declarations c'.declarations) :
    c.Alike c' where
  ids := mem_ids_of_sameParts h
  members s hs s' hs' := members_perm_of_sameParts h hs hs'
  accessors id := by
    have hsubset : ∀ {c c' : Compilation}, SameParts c.declarations c'.declarations →
        id ∈ c.unit.accessors.map (·.id) → id ∈ c'.unit.accessors.map (·.id) := by
      intro c c' h hid
      obtain ⟨s, hs, rfl⟩ := List.mem_map.1 hid
      obtain ⟨s', hs', hid', -⟩ := exists_accessor h hs
      exact List.mem_map.2 ⟨s', hs', hid'⟩
    exact ⟨hsubset h, hsubset h.symm⟩
  duplicates before after hc := by
    have hunit : ∀ e, e ∈ c.unit.entries ↔ e ∈ c'.unit.entries := fun e =>
      ⟨fun he => entries_subset_of_sameParts h he, fun he => entries_subset_of_sameParts h.symm he⟩
    have hentries : ∀ e, e ∈ collectEntries (before ++ c.unit :: after) ↔
        e ∈ collectEntries (before ++ c'.unit :: after) := by
      intro e
      simp only [collectEntries, List.flatMap_append, List.flatMap_cons, List.mem_append, hunit]
    exact (Table.reportsAlike_ofEntries hc hentries).groupSet_eq

/-- The order of the source files does not matter: permuted files have the same
types with the same members, the same accessors, and the same duplicates where
every name has one value.  Nor does it matter how the files are named, or how
the parts of a type are spread over them. -/
theorem alike_of_perm_files (project : String) (target : Option String)
    (files files' : List SourceFile) :
    (files.Perm files' → Alike ⟨project, target, files⟩ ⟨project, target, files'⟩) ∧
    (SameParts (files.flatMap (·.declarations)) (files'.flatMap (·.declarations)) →
      Alike ⟨project, target, files⟩ ⟨project, target, files'⟩) := by
  constructor
  · intro h
    exact alike_of_sameParts (.of_perm (h.flatMap_right _))
  · intro h
    exact alike_of_sameParts h

end Compilation

/-- A part of a type with the given members. -/
def partOf (name : String) (members : List MemberSymbol) : TypeDeclaration :=
  ⟨.class, name, "T:" ++ name, members⟩

/-- An accessor in two files, with the type of its manager in one of them. -/
def partialFiles : List SourceFile :=
  [⟨⟨"/Texts.cs"⟩, [partOf "A" [managerMember, textMember "A" "Save" "Save"], partOf "M" []], false⟩,
    ⟨⟨"/More.cs"⟩, [partOf "A" [textMember "A" "Store" "Save"]], false⟩]

/-- The same accessor with its manager in a file of its own. -/
def splitFiles : List SourceFile :=
  [⟨⟨"/Manager.cs"⟩, [partOf "A" [managerMember]], false⟩,
    ⟨⟨"/Texts.cs"⟩, [partOf "A" [textMember "A" "Save" "Save"], partOf "M" []], false⟩,
    ⟨⟨"/More.cs"⟩, [partOf "A" [textMember "A" "Store" "Save"]], false⟩]

theorem alike_partialFiles :
    partialFiles.Perm partialFiles.reverse ∧
    SameParts (partialFiles.flatMap (·.declarations)) (splitFiles.flatMap (·.declarations)) ∧
    IsConsistent (collectEntries [(⟨"App", none, partialFiles⟩ : Compilation).unit]) ∧
    Compilation.Alike ⟨"App", none, partialFiles⟩ ⟨"App", none, partialFiles.reverse⟩ ∧
    Compilation.Alike ⟨"App", none, partialFiles⟩ ⟨"App", none, splitFiles⟩ ∧
    groupSet (buildTable [(⟨"App", none, partialFiles⟩ : Compilation).unit]).duplicates =
      groupSet (buildTable [(⟨"App", none, splitFiles⟩ : Compilation).unit]).duplicates := by
  have hperm : partialFiles.Perm partialFiles.reverse := (List.reverse_perm _).symm
  have hparts :
      SameParts (partialFiles.flatMap (·.declarations)) (splitFiles.flatMap (·.declarations)) :=
    .split [] _ (partOf "A" [managerMember, textMember "A" "Save" "Save"]) [managerMember]
      [textMember "A" "Save" "Save"] (.refl _)
  have hc : IsConsistent (collectEntries [(⟨"App", none, partialFiles⟩ : Compilation).unit]) := by
    decide +kernel
  have halike := (Compilation.alike_of_perm_files "App" none partialFiles splitFiles).2 hparts
  exact ⟨hperm, hparts, hc,
    (Compilation.alike_of_perm_files "App" none partialFiles partialFiles.reverse).1 hperm,
    halike, halike.duplicates [] [] hc⟩

end ResourceAudit
