import ResourceAudit.CSharp.Outline.Reading
import Mathlib.Data.List.Basic

/-!
# ResourceAudit.Proofs.CSharp.Occurrence

The types of an outline where they stand.  `Outline.types` lists them in the
order of the source, each with its place, the namespaces and types around it and
what it holds; a branch of a conditional group is looked through and adds nothing
to what is around, and a file-scoped namespace is around everything after it.
Main statements:

* `pairwise_types` — the list follows the order of places, so that a type comes
  before the types in it and no type comes twice;
* `typesInMembers_eq` — the types inside a type are those directly in it, each
  with the types inside it behind it.
-/

namespace ResourceAudit.CSharp

/-! ## types in their places -/

/-- What a type stands in. -/
inductive Surrounding where
  | namespace (name : String)
  | type (name : String) (arity : Nat)
  deriving DecidableEq, Repr

/-- A type where it stands in an outline. -/
structure TypeOccurrence where
  /-- The way to it from the top: at each level the number of what leads on. -/
  place : List Nat
  /-- The namespaces and types around it, outermost first. -/
  around : List Surrounding
  kind : TypeKind
  name : String
  arity : Nat
  members : List Member

/-- A type directly in another one, with what stands before it. -/
structure NestedOccurrence where
  lead : Lead
  type : TypeOccurrence

mutual
/-- The types in a member of a type, in the order of the source. -/
def typesInMember (place : List Nat) (around : List Surrounding) : Member → List TypeOccurrence
  | .type _ kind name arity members =>
    ⟨place, around, kind, name, arity, members⟩ ::
      typesInMembers place (around ++ [.type name arity]) 0 members
  | .conditional members => typesInMembers place around 0 members
  | _ => []

/-- The types in members that are counted from an index on. -/
def typesInMembers (place : List Nat) (around : List Surrounding) (index : Nat) :
    List Member → List TypeOccurrence
  | [] => []
  | member :: rest =>
    typesInMember (place ++ [index]) around member ++ typesInMembers place around (index + 1) rest
end

mutual
/-- The types in an item, in the order of the source. -/
def typesInItem (place : List Nat) (around : List Surrounding) : Item → List TypeOccurrence
  | .namespace name items => typesInItems place (around ++ [.namespace name]) 0 items
  | .type kind name arity members =>
    ⟨place, around, kind, name, arity, members⟩ ::
      typesInMembers place (around ++ [.type name arity]) 0 members
  | .conditional items => typesInItems place around 0 items
  | .fileNamespace _ | .unreadable => []

/-- The types in items that are counted from an index on. -/
def typesInItems (place : List Nat) (around : List Surrounding) (index : Nat) :
    List Item → List TypeOccurrence
  | [] => []
  | .fileNamespace name :: rest =>
    typesInItems place (around ++ [.namespace name]) (index + 1) rest
  | item :: rest =>
    typesInItem (place ++ [index]) around item ++ typesInItems place around (index + 1) rest
end

/-- The types of an outline, in the order of the source. -/
def Outline.types (o : Outline) : List TypeOccurrence := typesInItems [] [] 0 o.items

mutual
/-- The type that a member of a type is, or those that a branch holds. -/
def nestedInMember (place : List Nat) (around : List Surrounding) :
    Member → List NestedOccurrence
  | .type lead kind name arity members => [⟨lead, place, around, kind, name, arity, members⟩]
  | .conditional members => nestedInMembers place around 0 members
  | _ => []

/-- The types that members are which are counted from an index on. -/
def nestedInMembers (place : List Nat) (around : List Surrounding) (index : Nat) :
    List Member → List NestedOccurrence
  | [] => []
  | member :: rest =>
    nestedInMember (place ++ [index]) around member ++ nestedInMembers place around (index + 1) rest
end

namespace TypeOccurrence

/-- What is around the members of a type. -/
def aroundMembers (x : TypeOccurrence) : List Surrounding := x.around ++ [.type x.name x.arity]

/-- The types inside a type, in the order of the source. -/
def inside (x : TypeOccurrence) : List TypeOccurrence :=
  typesInMembers x.place x.aroundMembers 0 x.members

/-- The types directly in a type. -/
def nested (x : TypeOccurrence) : List NestedOccurrence :=
  nestedInMembers x.place x.aroundMembers 0 x.members

end TypeOccurrence

/-! ## places -/

mutual
theorem prefix_place_of_mem_typesInMember {place : List Nat} {around : List Surrounding}
    {m : Member} {x : TypeOccurrence} (h : x ∈ typesInMember place around m) : place <+: x.place := by
  cases m with
  | type lead kind name arity members =>
    rcases List.mem_cons.1 h with rfl | h
    · exact List.prefix_rfl
    · obtain ⟨j, rest, -, hplace⟩ := place_of_mem_typesInMembers h
      exact ⟨j :: rest, hplace.symm⟩
  | conditional members =>
    obtain ⟨j, rest, -, hplace⟩ := place_of_mem_typesInMembers h
    exact ⟨j :: rest, hplace.symm⟩
  | _ => cases h

theorem place_of_mem_typesInMembers {place : List Nat} {around : List Surrounding} {index : Nat}
    {ms : List Member} {x : TypeOccurrence} (h : x ∈ typesInMembers place around index ms) :
    ∃ j rest, index ≤ j ∧ x.place = place ++ j :: rest := by
  cases ms with
  | nil => cases h
  | cons m ms =>
    rcases List.mem_append.1 h with h | h
    · obtain ⟨rest, hplace⟩ := prefix_place_of_mem_typesInMember h
      exact ⟨index, rest, Nat.le_refl _, by simp [← hplace]⟩
    · obtain ⟨j, rest, hj, hplace⟩ := place_of_mem_typesInMembers h
      exact ⟨j, rest, by omega, hplace⟩
end

mutual
theorem prefix_place_of_mem_typesInItem {place : List Nat} {around : List Surrounding}
    {item : Item} {x : TypeOccurrence} (h : x ∈ typesInItem place around item) :
    place <+: x.place := by
  cases item with
  | «namespace» name items | conditional items =>
    obtain ⟨j, rest, -, hplace⟩ := place_of_mem_typesInItems h
    exact ⟨j :: rest, hplace.symm⟩
  | type kind name arity members =>
    rcases List.mem_cons.1 h with rfl | h
    · exact List.prefix_rfl
    · obtain ⟨j, rest, -, hplace⟩ := place_of_mem_typesInMembers h
      exact ⟨j :: rest, hplace.symm⟩
  | _ => cases h

theorem place_of_mem_typesInItems {place : List Nat} {around : List Surrounding} {index : Nat}
    {items : List Item} {x : TypeOccurrence} (h : x ∈ typesInItems place around index items) :
    ∃ j rest, index ≤ j ∧ x.place = place ++ j :: rest := by
  cases items with
  | nil => cases h
  | cons item items =>
    have hsplit : x ∈ typesInItem (place ++ [index]) around item ∨
        ∃ around, x ∈ typesInItems place around (index + 1) items := by
      cases item with
      | fileNamespace name => exact .inr ⟨_, h⟩
      | _ => exact (List.mem_append.1 h).imp id fun h => ⟨_, h⟩
    rcases hsplit with h | ⟨around, h⟩
    · obtain ⟨rest, hplace⟩ := prefix_place_of_mem_typesInItem h
      exact ⟨index, rest, Nat.le_refl _, by simp [← hplace]⟩
    · obtain ⟨j, rest, hj, hplace⟩ := place_of_mem_typesInItems h
      exact ⟨j, rest, by omega, hplace⟩
end

/-- A place comes before all places behind it at its level. -/
theorem place_lt {place front rest : List Nat} {i j : Nat} (hfront : place ++ [i] <+: front)
    (hj : i + 1 ≤ j) : front < place ++ j :: rest := by
  obtain ⟨more, rfl⟩ := hfront
  rw [List.append_assoc, List.singleton_append]
  refine List.append_left_lt ?_
  rw [List.cons_lt_cons_iff]
  exact .inl (by omega)

/-- A place comes before the places inside it. -/
theorem place_lt_inside (place : List Nat) (j : Nat) (rest : List Nat) :
    place < place ++ j :: rest := by
  have h : place ++ [] < place ++ j :: rest := List.append_left_lt (List.nil_lt_cons j rest)
  rwa [List.append_nil] at h

mutual
theorem pairwise_typesInMember (place : List Nat) (around : List Surrounding) (m : Member) :
    (typesInMember place around m).Pairwise fun x y => x.place < y.place := by
  cases m with
  | type lead kind name arity members =>
    refine List.pairwise_cons.2 ⟨fun x hx => ?_, pairwise_typesInMembers _ _ _ members⟩
    obtain ⟨j, rest, -, hplace⟩ := place_of_mem_typesInMembers hx
    rw [hplace]
    exact place_lt_inside place j rest
  | conditional members => exact pairwise_typesInMembers _ _ _ members
  | _ => exact .nil

theorem pairwise_typesInMembers (place : List Nat) (around : List Surrounding) (index : Nat)
    (ms : List Member) :
    (typesInMembers place around index ms).Pairwise fun x y => x.place < y.place := by
  cases ms with
  | nil => exact .nil
  | cons m ms =>
    refine List.pairwise_append.2 ⟨pairwise_typesInMember _ _ m, pairwise_typesInMembers _ _ _ ms, ?_⟩
    intro x hx y hy
    obtain ⟨j, rest, hj, hplace⟩ := place_of_mem_typesInMembers hy
    rw [hplace]
    exact place_lt (prefix_place_of_mem_typesInMember hx) hj
end

mutual
theorem pairwise_typesInItem (place : List Nat) (around : List Surrounding) (item : Item) :
    (typesInItem place around item).Pairwise fun x y => x.place < y.place := by
  cases item with
  | «namespace» name items | conditional items => exact pairwise_typesInItems _ _ _ items
  | type kind name arity members =>
    exact pairwise_typesInMember place around (.type ⟨[], []⟩ kind name arity members)
  | _ => exact .nil

theorem pairwise_typesInItems (place : List Nat) (around : List Surrounding) (index : Nat)
    (items : List Item) :
    (typesInItems place around index items).Pairwise fun x y => x.place < y.place := by
  cases items with
  | nil => exact .nil
  | cons item items =>
    cases item with
    | fileNamespace name => exact pairwise_typesInItems _ _ _ items
    | _ =>
      refine List.pairwise_append.2
        ⟨pairwise_typesInItem _ _ _, pairwise_typesInItems _ _ _ items, ?_⟩
      intro x hx y hy
      obtain ⟨j, rest, hj, hplace⟩ := place_of_mem_typesInItems hy
      rw [hplace]
      exact place_lt (prefix_place_of_mem_typesInItem hx) hj
end

/-- The types of an outline come in the order of their places. -/
theorem Outline.pairwise_types (o : Outline) :
    o.types.Pairwise fun x y => x.place < y.place := pairwise_typesInItems [] [] 0 o.items

/-! ## nested types -/

mutual
theorem typesInMember_eq (place : List Nat) (around : List Surrounding) (m : Member) :
    typesInMember place around m =
      (nestedInMember place around m).flatMap fun n => n.type :: n.type.inside := by
  cases m with
  | type lead kind name arity members =>
    rw [nestedInMember, List.flatMap_singleton]
    rfl
  | conditional members => exact typesInMembers_eq place around 0 members
  | _ => rfl

/-- The types in members are the types that these are, each with the types inside
it behind it. -/
theorem typesInMembers_eq (place : List Nat) (around : List Surrounding) (index : Nat)
    (ms : List Member) :
    typesInMembers place around index ms =
      (nestedInMembers place around index ms).flatMap fun n => n.type :: n.type.inside := by
  cases ms with
  | nil => rfl
  | cons m ms =>
    rw [typesInMembers, nestedInMembers, List.flatMap_append, typesInMember_eq, typesInMembers_eq]
end

/-- A type directly in another one is inside it. -/
theorem TypeOccurrence.mem_inside_of_mem_nested {x : TypeOccurrence} {n : NestedOccurrence}
    (h : n ∈ x.nested) : n.type ∈ x.inside := by
  rw [inside, typesInMembers_eq]
  exact List.mem_flatMap.2 ⟨n, h, List.mem_cons_self⟩

mutual
theorem nested_subset_typesInMember {place : List Nat} {around : List Surrounding} {m : Member}
    {x : TypeOccurrence} (hx : x ∈ typesInMember place around m) {n : NestedOccurrence}
    (hn : n ∈ x.nested) : n.type ∈ typesInMember place around m := by
  cases m with
  | type lead kind name arity members =>
    rcases List.mem_cons.1 hx with rfl | hx
    · exact List.mem_cons_of_mem _ (TypeOccurrence.mem_inside_of_mem_nested hn)
    · exact List.mem_cons_of_mem _ (nested_subset_typesInMembers hx hn)
  | conditional members =>
    rw [typesInMember] at hx ⊢
    exact nested_subset_typesInMembers hx hn
  | _ => cases hx

theorem nested_subset_typesInMembers {place : List Nat} {around : List Surrounding} {index : Nat}
    {ms : List Member} {x : TypeOccurrence} (hx : x ∈ typesInMembers place around index ms)
    {n : NestedOccurrence} (hn : n ∈ x.nested) : n.type ∈ typesInMembers place around index ms := by
  cases ms with
  | nil => cases hx
  | cons m ms =>
    rcases List.mem_append.1 hx with hx | hx
    · exact List.mem_append_left _ (nested_subset_typesInMember hx hn)
    · exact List.mem_append_right _ (nested_subset_typesInMembers hx hn)
end

mutual
theorem nested_subset_typesInItem {place : List Nat} {around : List Surrounding} {item : Item}
    {x : TypeOccurrence} (hx : x ∈ typesInItem place around item) {n : NestedOccurrence}
    (hn : n ∈ x.nested) : n.type ∈ typesInItem place around item := by
  cases item with
  | «namespace» name items | conditional items =>
    rw [typesInItem] at hx ⊢
    exact nested_subset_typesInItems hx hn
  | type kind name arity members =>
    exact nested_subset_typesInMember (m := .type ⟨[], []⟩ kind name arity members) hx hn
  | _ => cases hx

theorem nested_subset_typesInItems {place : List Nat} {around : List Surrounding} {index : Nat}
    {items : List Item} {x : TypeOccurrence} (hx : x ∈ typesInItems place around index items)
    {n : NestedOccurrence} (hn : n ∈ x.nested) : n.type ∈ typesInItems place around index items := by
  cases items with
  | nil => cases hx
  | cons item items =>
    cases item with
    | fileNamespace name =>
      rw [typesInItems] at hx ⊢
      exact nested_subset_typesInItems hx hn
    | _ =>
      rcases List.mem_append.1 hx with hx | hx
      · exact List.mem_append_left _ (nested_subset_typesInItem hx hn)
      · exact List.mem_append_right _ (nested_subset_typesInItems hx hn)
end

/-- A type directly in a type of an outline is a type of the outline. -/
theorem Outline.mem_types_of_mem_nested {o : Outline} {x : TypeOccurrence} (hx : x ∈ o.types)
    {n : NestedOccurrence} (hn : n ∈ x.nested) : n.type ∈ o.types :=
  nested_subset_typesInItems hx hn

end ResourceAudit.CSharp
