import ResourceAudit.Proofs.FileTree.Places
import ResourceAudit.Proofs.Results

/-!
# ResourceAudit.Proofs.FileTree.Listing

The order in which the entries of directories are listed.  A tree that lists them
in another order is the same tree to every question but that for a listing: a path
leads to the same place (`Node.Relists.walk`), so what is a file and what the
canonical path is does not change, and the names in a directory are the same ones
(`FileTree.Relists.names_perm`).
-/

namespace ResourceAudit

/-- Being the same node with the entries of its directories in any order. -/
inductive Node.Relists : Node → Node → Prop
  | file (bytes : ByteArray) : Relists (.file bytes) (.file bytes)
  | link (target : String) : Relists (.link target) (.link target)
  | dir {entries others : List (String × Node)}
      (names : (entries.map (·.1)).Perm (others.map (·.1)))
      (inner : ∀ name node other, entries.lookup name = some node →
        others.lookup name = some other → Relists node other) :
      Relists (.dir entries) (.dir others)

/-! ## the same entries -/

theorem lookup_eq_none {entries : List (String × Node)} {name : String} :
    entries.lookup name = none ↔ name ∉ entries.map (·.1) := by
  simp only [List.lookup_eq_none_iff, bne_iff_ne, List.mem_map, not_exists, not_and]
  grind

/-- Directories are relisted entry by entry. -/
theorem Node.Relists.cons {node other : Node} {entries others : List (String × Node)}
    (hnode : node.Relists other) (hrest : (Node.dir entries).Relists (.dir others))
    (name : String) : (Node.dir ((name, node) :: entries)).Relists (.dir ((name, other) :: others)) := by
  cases hrest with
  | dir names inner =>
    refine .dir (by simpa using names) fun found inside inside' hinside hinside' => ?_
    rw [List.lookup_cons] at hinside hinside'
    cases hfound : found == name with
    | true => simp_all
    | false =>
      simp only [hfound] at hinside hinside'
      exact inner found inside inside' hinside hinside'

mutual
theorem Node.Relists.refl : (node : Node) → node.Relists node
  | .file bytes => .file bytes
  | .link target => .link target
  | .dir entries => relists_refl_dir entries

theorem relists_refl_dir : (entries : List (String × Node)) →
    (Node.dir entries).Relists (.dir entries)
  | [] => .dir .rfl fun _ _ _ h => by cases h
  | (name, node) :: rest => (Node.Relists.refl node).cons (relists_refl_dir rest) name
end

/-- Entries of different names can be listed in any order. -/
theorem Node.Relists.of_perm {entries others : List (String × Node)} (h : entries.Perm others)
    (hnodup : (entries.map (·.1)).Nodup) : (Node.dir entries).Relists (.dir others) := by
  have hnames := h.map (·.1)
  refine .dir hnames fun name node other hnode hother => ?_
  have hmem : (name, node) ∈ others := h.mem_iff.1 (mem_of_lookup hnode)
  have hsame := lookup_of_mem (hnames.nodup_iff.1 hnodup) hmem
  rw [hother, Option.some.injEq] at hsame
  exact hsame ▸ .refl node

/-! ## the same places -/

section Relists

variable {root other : Node}

theorem Node.Relists.lookup {entries others : List (String × Node)}
    (h : (Node.dir entries).Relists (.dir others)) (name : String) :
    Option.Rel Node.Relists (entries.lookup name) (others.lookup name) := by
  cases h with
  | dir names inner =>
    have hnone : entries.lookup name = none ↔ others.lookup name = none := by
      rw [lookup_eq_none, lookup_eq_none, names.mem_iff]
    cases hentry : entries.lookup name with
    | none =>
      rw [hnone.1 hentry]
      exact .none
    | some node =>
      cases hother : others.lookup name with
      | none => simp [hnone.2 hother] at hentry
      | some found => exact .some (inner name node found hentry hother)

theorem Node.Relists.at? (h : root.Relists other) (place : Place) :
    Option.Rel Node.Relists (root.at? place) (other.at? place) := by
  induction place generalizing root other with
  | nil => exact .some h
  | cons name rest ih =>
    rw [Node.at?, Node.at?]
    have hchild : Option.Rel Node.Relists (root.child? name) (other.child? name) := by
      cases h with
      | file bytes => exact .none
      | link target => exact .none
      | dir names inner => exact (Node.Relists.dir names inner).lookup name
    generalize root.child? name = child, other.child? name = child' at hchild
    cases hchild with
    | none => exact .none
    | some hnode => exact ih hnode

/-- Pieces lead to the same place in whatever order directories are listed. -/
theorem Node.Relists.walk (h : root.Relists other) (followLast : Bool) (links : Nat)
    (place : Place) (pieces : List String) :
    ResultsMatch (fun found found' => found.1 = found'.1 ∧ found.2.Relists found'.2)
      (root.walk followLast links place pieces) (other.walk followLast links place pieces) := by
  -- a link that is followed puts pieces in front of those that are left, so the
  -- induction is on the links first
  induction links using Nat.strongRecOn generalizing place pieces with
  | ind links ihLinks =>
  induction pieces generalizing place with
  | nil =>
    have hat := h.at? place
    rw [Node.walk, Node.walk]
    generalize root.at? place = node, other.at? place = node' at hat
    cases hat with
    | none => exact .error _
    | some hnode => exact .ok ⟨rfl, hnode⟩
  | cons piece rest ih =>
    have hat := h.at? place
    rw [Node.walk, Node.walk.eq_def other]
    generalize root.at? place = node, other.at? place = node' at hat
    cases hat with
    | none => exact .error _
    | some hnode =>
    cases hnode with
    | file bytes => exact .error _
    | link target => exact .error _
    | @dir entries others names inner =>
      dsimp only
      by_cases hvoid : piece = "" ∨ piece = "."
      · rw [if_pos hvoid, if_pos hvoid]
        exact ih place
      rw [if_neg hvoid, if_neg hvoid]
      by_cases hup : piece = ".."
      · rw [if_pos hup, if_pos hup]
        exact ih place.dropLast
      rw [if_neg hup, if_neg hup]
      have hchild := (Node.Relists.dir names inner).lookup piece
      generalize entries.lookup piece = child, others.lookup piece = child' at hchild
      cases hchild with
      | none => exact .error _
      | some hnode =>
      cases hnode with
      | file bytes => exact ih _
      | dir names inner => exact ih _
      | link target =>
        dsimp only
        split
        · exact .ok ⟨rfl, .link target⟩
        · cases links with
          | zero => exact .error _
          | succ links =>
            dsimp only
            split
            · exact .error _
            · exact ihLinks links (Nat.lt_succ_self links) _ _

end Relists

/-! ## trees -/

/-- Being the same tree with the entries of its directories in any order. -/
structure FileTree.Relists (t other : FileTree) : Prop where
  root : t.root.Relists other.root
  here_eq : t.here = other.here

/-- The names in the directory a path leads to, as they are listed. -/
def FileTree.names (t : FileTree) (p : Path) : List String := ((t.list? p).getD []).map (·.1)

/-- The names in a directory of a well-formed tree are names of files, each there
once. -/
theorem FileTree.WellFormed.names {t : FileTree} (ht : t.WellFormed) (p : Path) :
    (∀ name ∈ t.names p, IsFileName name) ∧ (t.names p).Nodup := by
  rw [FileTree.names, list?, node?]
  cases hresolve : t.resolve true p with
  | error fault => simp [Except.toOption]
  | ok found =>
    obtain ⟨place, node⟩ := found
    cases node with
    | file bytes => simp [Except.toOption]
    | link target => simp [Except.toOption]
    | dir entries => exact (ht.resolve hresolve).self

section Questions

variable {t other : FileTree} (h : t.Relists other)

include h

theorem FileTree.Relists.resolve (followLast : Bool) (p : Path) :
    ResultsMatch (fun found found' => found.1 = found'.1 ∧ found.2.Relists found'.2)
      (t.resolve followLast p) (other.resolve followLast p) := by
  rw [FileTree.resolve, FileTree.resolve, h.here_eq]
  split
  · exact .error _
  · exact h.root.walk followLast maxLinks _ _

theorem FileTree.Relists.canonical?_eq (p : Path) : t.canonical? p = other.canonical? p := by
  rw [canonical?, canonical?]
  obtain ⟨found, found', hfound, hfound', hplace, -⟩ | ⟨fault, hfault, hfault'⟩ :=
    (h.resolve true p).ok_or_error
  · simp [hfound, hfound', hplace, Except.toOption]
  · simp [hfault, hfault', Except.toOption]

theorem FileTree.Relists.node? (p : Path) :
    Option.Rel Node.Relists (t.node? p) (other.node? p) := by
  rw [FileTree.node?, FileTree.node?]
  obtain ⟨found, found', hfound, hfound', -, hnode⟩ | ⟨fault, hfault, hfault'⟩ :=
    (h.resolve true p).ok_or_error
  · rw [hfound, hfound']
    exact .some hnode
  · rw [hfault, hfault']
    exact .none

theorem FileTree.Relists.isFile_eq (p : Path) : t.isFile p = other.isFile p := by
  have hnode := h.node? p
  rw [isFile, isFile]
  generalize t.node? p = node, other.node? p = node' at hnode
  obtain ⟨⟨⟩⟩ | ⟨⟩ := hnode <;> rfl

/-- The names in a directory are the same, in whatever order they are listed. -/
theorem FileTree.Relists.names_perm (p : Path) : (t.names p).Perm (other.names p) := by
  have hnode := h.node? p
  rw [FileTree.names, FileTree.names, list?, list?]
  generalize t.node? p = node, other.node? p = node' at hnode
  cases hnode with
  | none => exact .nil
  | some hnode =>
  cases hnode with
  | file bytes => exact .nil
  | link target => exact .nil
  | dir names inner => exact names

end Questions

end ResourceAudit
