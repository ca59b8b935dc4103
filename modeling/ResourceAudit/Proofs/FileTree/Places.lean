import ResourceAudit.Proofs.FileTree.WellFormed

/-!
# ResourceAudit.Proofs.FileTree.Places

The paths of places.  In a tree without links the path of a place leads to that
place and nowhere else (`FileTree.toOption_resolve_toPath`).
-/

namespace ResourceAudit

open ResourceAudit.Text

/-! ## paths of places -/

theorem Place.toPath_eq (place : Place) :
    Place.toPath place = Path.ofComponents (.root :: place.map .name) := by
  have htext : Component.text ∘ Component.name = id := rfl
  rw [toPath, Path.ofComponents, List.map_map, htext, List.map_id]

theorem isResolved_place {place : Place} (h : ∀ name ∈ place, IsFileName name) :
    IsResolved (.root :: place.map .name) := by
  refine ⟨[.root], place.map .name, .inr rfl, rfl, ?_, ?_⟩
  · rw [List.forall_mem_map]
    exact h
  · intro hup
    simpa using List.mem_of_mem_tail hup

theorem Place.components_toPath {place : Place} (h : ∀ name ∈ place, IsFileName name) :
    (Place.toPath place).components = .root :: place.map .name := by
  rw [toPath_eq, components_ofComponents (isResolved_place h)]

theorem Place.isCanonical_toPath {place : Place} (h : ∀ name ∈ place, IsFileName name) :
    (Place.toPath place).IsCanonical :=
  ⟨_, isResolved_place h, (toPath_eq place).symm⟩

theorem Place.join_toPath {place : Place} (h : ∀ name ∈ place, IsFileName name) {name : String}
    (hname : IsFileName name) :
    (Place.toPath place).join name = Place.toPath (place ++ [name]) := by
  rw [toPath_eq, toPath_eq, join_ofComponents (isResolved_place h) hname]
  simp

theorem forall_isFileName_concat {place : Place} (h : ∀ name ∈ place, IsFileName name)
    {name : String} (hname : IsFileName name) : ∀ other ∈ place ++ [name], IsFileName other := by
  rw [List.forall_mem_append, List.forall_mem_singleton]
  exact ⟨h, hname⟩

theorem Place.fileName_toPath {place : Place} (h : ∀ name ∈ place, IsFileName name) {name : String}
    (hname : IsFileName name) : (Place.toPath (place ++ [name])).fileName = some name := by
  rw [Path.fileName, components_toPath (forall_isFileName_concat h hname)]
  simp [List.getLast?_cons]

theorem Place.toPath_inj {place other : Place} (h : ∀ name ∈ place, IsFileName name)
    (hother : ∀ name ∈ other, IsFileName name) (heq : Place.toPath place = Place.toPath other) :
    place = other := by
  have hcomponents := congrArg Path.components heq
  rw [components_toPath h, components_toPath hother, List.cons.injEq] at hcomponents
  exact (List.map_inj_right fun _ _ => Component.name.inj).1 hcomponents.2

theorem Place.isAbsolute_toPath (place : Place) : (Place.toPath place).isAbsolute = true := by
  rw [Path.isAbsolute, Path.pieces, toPath, String.toList_append]
  rfl

/-! ## places in a tree -/

/-- Being no link. -/
def Node.IsNoLink : Node → Prop
  | .link _ => False
  | _ => True

instance : DecidablePred Node.IsNoLink
  | .link _ => .isFalse id
  | .file _ | .dir _ => .isTrue trivial

def FileTree.LinkFree (t : FileTree) : Prop := t.root.All Node.IsNoLink

instance (t : FileTree) : Decidable t.LinkFree := t.root.decidableAll

theorem mem_of_lookup {entries : List (String × Node)} {name : String} {node : Node}
    (h : entries.lookup name = some node) : (name, node) ∈ entries := by
  obtain ⟨front, rest, rfl, -⟩ := List.lookup_eq_some_iff.1 h
  simp

theorem lookup_of_mem {entries : List (String × Node)} (h : (entries.map (·.1)).Nodup)
    {entry : String × Node} (hentry : entry ∈ entries) : entries.lookup entry.1 = some entry.2 := by
  induction entries with
  | nil => cases hentry
  | cons other rest ih =>
    rw [List.map_cons, List.nodup_cons] at h
    rw [List.lookup_cons]
    rcases List.mem_cons.1 hentry with rfl | hrest
    · rw [beq_self_eq_true]
    · have hne : (entry.1 == other.1) = false :=
        beq_eq_false_iff_ne.2 fun he => h.1 (he ▸ List.mem_map_of_mem hrest)
      rw [hne]
      exact ih h.2 hrest

theorem isFileName_of_child? {node child : Node} (hnode : node.WellFormed) {name : String}
    (h : node.child? name = some child) : IsFileName name := by
  cases node with
  | file bytes => cases h
  | link target => cases h
  | dir entries => exact hnode.self.1 name (List.mem_map_of_mem (mem_of_lookup h))

theorem isFileName_of_at? {node found : Node} (hnode : node.WellFormed) {place : Place}
    (h : node.at? place = some found) : ∀ name ∈ place, IsFileName name := by
  induction place generalizing node with
  | nil => simp
  | cons name rest ih =>
    rw [Node.at?, Option.bind_eq_some_iff] at h
    obtain ⟨child, hchild, hrest⟩ := h
    rw [List.forall_mem_cons]
    exact ⟨isFileName_of_child? hnode hchild, ih (hnode.child? hchild) hrest⟩

/-! ## paths that lead to places -/

/-- Where no link stands on the way, names lead down from a place. -/
theorem toOption_walk {root : Node} (followLast : Bool) (links : Nat) (place : Place)
    {rest : List String} (h : ∀ name ∈ rest, IsFileName name)
    (hlinks : ∀ way, way <+: rest → ∀ target, root.at? (place ++ way) ≠ some (.link target)) :
    (root.walk followLast links place rest).toOption =
      (root.at? (place ++ rest)).map (place ++ rest, ·) := by
  induction rest generalizing place with
  | nil =>
    rw [Node.walk, List.append_nil]
    cases root.at? place <;> rfl
  | cons name rest ih =>
    rw [List.forall_mem_cons] at h
    obtain ⟨⟨hempty, hdot, hdots, -⟩, hrest⟩ := h
    rw [Node.walk, Node.at?_append]
    cases hplace : root.at? place with
    | none => rfl
    | some node =>
      cases node with
      | file bytes => rfl
      | link target => rfl
      | dir entries =>
        rw [Option.bind_some, Node.at?, Node.child?]
        dsimp only
        rw [if_neg (not_or.2 ⟨hempty, hdot⟩), if_neg hdots]
        cases hlookup : entries.lookup name with
        | none => rfl
        | some child =>
          have hchild : root.at? (place ++ [name]) = some child := by
            rw [Node.at?_append, hplace, Option.bind_some, Node.at?, Node.child?, hlookup]
            rfl
          have hnext := ih (place ++ [name]) hrest fun way hway target => by
            rw [List.append_assoc, List.singleton_append]
            exact hlinks _ (List.cons_prefix_cons.2 ⟨rfl, hway⟩) target
          rw [Node.at?_append, hchild, Option.bind_some, List.append_assoc, List.singleton_append]
            at hnext
          cases child with
          | link target => exact absurd hchild (hlinks [name] (by simp) target)
          | file bytes => exact hnext
          | dir inner => exact hnext

theorem Place.toList_toPath (place : Place) :
    (Place.toPath place).text.toList = '/' :: ['/'].intercalate (place.map String.toList) := by
  rw [toPath, String.toList_append, String.toList_intercalate]
  rfl

/-- An empty piece stays where it is. -/
theorem walk_empty {root : Node} (hroot : root.isDir = true) (followLast : Bool) (links : Nat)
    (rest : List String) :
    root.walk followLast links [] ("" :: rest) = root.walk followLast links [] rest := by
  cases root with
  | file bytes => cases hroot
  | link target => cases hroot
  | dir entries =>
    rw [Node.walk, Node.at?]
    exact if_pos (.inl rfl)

/-- The pieces of the path of a place are its names, behind the root. -/
theorem walk_toPath {root : Node} (hroot : root.isDir = true) (followLast : Bool) (links : Nat)
    {place : Place} (h : ∀ name ∈ place, IsFileName name) :
    root.walk followLast links []
        ((fields (· == '/') (Place.toPath place).text.toList).map String.ofList) =
      root.walk followLast links [] place := by
  rw [Place.toList_toPath, fields_cons_self, List.map_cons, String.ofList_nil, walk_empty hroot]
  cases place with
  | nil => exact walk_empty hroot followLast links []
  | cons name rest =>
    have hslash : ∀ piece ∈ (name :: rest).map String.toList, '/' ∉ piece := by
      rw [List.forall_mem_map]
      exact fun other hother => (h other hother).2.2.2
    rw [fields_intercalate (by simp) hslash, List.map_map]
    simp

theorem FileTree.resolve_toPath {t : FileTree} (hroot : t.root.isDir = true) (followLast : Bool)
    {place : Place} (h : ∀ name ∈ place, IsFileName name) :
    t.resolve followLast place.toPath = t.root.walk followLast maxLinks [] place := by
  have htext : ¬ place.toPath.text.isEmpty = true := by
    rw [String.isEmpty_iff, ← String.toList_eq_nil_iff, Place.toList_toPath]
    exact List.cons_ne_nil _ _
  rw [resolve, Place.isAbsolute_toPath, if_neg htext]
  exact walk_toPath hroot followLast maxLinks h

/-- In a tree without links, the path of a place leads to what is there. -/
theorem FileTree.toOption_resolve_toPath {t : FileTree} (hlinks : t.LinkFree)
    (hroot : t.root.isDir = true) (followLast : Bool) {place : Place}
    (h : ∀ name ∈ place, IsFileName name) :
    (t.resolve followLast (Place.toPath place)).toOption = (t.root.at? place).map (place, ·) := by
  have hway : ∀ way, way <+: place → ∀ target, t.root.at? ([] ++ way) ≠ some (.link target) :=
    fun way _ target hat => (hlinks.at? hat).self
  have hwalk := toOption_walk followLast maxLinks [] h hway
  rwa [List.nil_append, ← resolve_toPath hroot followLast h] at hwalk

theorem FileTree.node?_toPath {t : FileTree} (hlinks : t.LinkFree)
    (hroot : t.root.isDir = true) {place : Place} (h : ∀ name ∈ place, IsFileName name) :
    t.node? (Place.toPath place) = t.root.at? place := by
  rw [node?, toOption_resolve_toPath hlinks hroot true h, Option.map_map]
  exact Option.map_id'

theorem FileTree.read_of_resolve {t : FileTree} {p : Path} {place : Place} {text : String}
    (h : t.resolve true p = .ok (place, .file text.toUTF8)) : t.read p = .ok text := by
  have htext : String.fromUTF8? text.toUTF8 = some text := by
    simp only [String.fromUTF8?, String.toUTF8_eq_toByteArray, dif_pos text.isValidUTF8]
    rfl
  rw [FileTree.read, h]
  simp only [htext, Option.elim_some]

/-- The file at a place is read by the path of the place. -/
theorem FileTree.read_toPath {t : FileTree} (hlinks : t.LinkFree) (hroot : t.root.isDir = true)
    {place : Place} (h : ∀ name ∈ place, IsFileName name) {text : String}
    (hat : t.root.at? place = some (.file text.toUTF8)) : t.read place.toPath = .ok text := by
  have hfound := toOption_resolve_toPath hlinks hroot true h
  rw [hat, Option.map_some] at hfound
  cases hresolve : t.resolve true place.toPath with
  | error fault =>
    rw [hresolve] at hfound
    cases hfound
  | ok found =>
    rw [hresolve] at hfound
    exact read_of_resolve (hresolve.trans (congrArg Except.ok (Option.some.inj hfound)))

end ResourceAudit
