import ResourceAudit.FileTree
import ResourceAudit.Proofs.Path.Normal

/-!
# ResourceAudit.Proofs.FileTree.WellFormed

Well-formed file trees: the entries of a directory have names of files, each
its own.  Every node that a path leads to is one of the tree
(`at?_of_resolve`), so it is well-formed with it.
-/

namespace ResourceAudit

/-! ## trees -/

mutual
/-- Being true of a node and of all nodes below it. -/
def Node.All (P : Node → Prop) : Node → Prop
  | .file bytes => P (.file bytes)
  | .link target => P (.link target)
  | .dir entries => P (.dir entries) ∧ AllOf P entries

def AllOf (P : Node → Prop) : List (String × Node) → Prop
  | [] => True
  | (_, node) :: rest => node.All P ∧ AllOf P rest
end

section All

variable {P : Node → Prop}

mutual
def Node.decidableAll [DecidablePred P] : (node : Node) → Decidable (node.All P)
  | .file bytes => inferInstanceAs (Decidable (P (.file bytes)))
  | .link target => inferInstanceAs (Decidable (P (.link target)))
  | .dir entries =>
    have := decidableAllOf entries
    inferInstanceAs (Decidable (P (.dir entries) ∧ AllOf P entries))

def decidableAllOf [DecidablePred P] :
    (entries : List (String × Node)) → Decidable (AllOf P entries)
  | [] => .isTrue trivial
  | (_, node) :: rest =>
    have := node.decidableAll
    have := decidableAllOf rest
    inferInstanceAs (Decidable (node.All P ∧ AllOf P rest))
end

instance [DecidablePred P] (node : Node) : Decidable (node.All P) := node.decidableAll

theorem Node.All.self {node : Node} (h : node.All P) : P node := by
  cases node with
  | file bytes => exact h
  | link target => exact h
  | dir entries => exact h.1

theorem AllOf.lookup {entries : List (String × Node)} (h : AllOf P entries) {name : String}
    {node : Node} (hnode : entries.lookup name = some node) : node.All P := by
  induction entries with
  | nil => cases hnode
  | cons entry rest ih =>
    obtain ⟨hentry, hrest⟩ := h
    rw [List.lookup_cons] at hnode
    split at hnode
    · exact Option.some.inj hnode ▸ hentry
    · exact ih hrest hnode

theorem Node.All.child? {node child : Node} (h : node.All P) {name : String}
    (hchild : node.child? name = some child) : child.All P := by
  cases node with
  | file bytes => cases hchild
  | link target => cases hchild
  | dir entries => exact h.2.lookup hchild

theorem Node.All.at? {node found : Node} (h : node.All P) {place : Place}
    (hfound : node.at? place = some found) : found.All P := by
  induction place generalizing node with
  | nil => exact Option.some.inj hfound ▸ h
  | cons name rest ih =>
    rw [Node.at?, Option.bind_eq_some_iff] at hfound
    obtain ⟨child, hchild, hrest⟩ := hfound
    exact ih (h.child? hchild) hrest

end All

/-- Having names of files only, and no two that are alike, if it is a directory. -/
def Node.HasFileNames : Node → Prop
  | .dir entries => (∀ name ∈ entries.map (·.1), IsFileName name) ∧ (entries.map (·.1)).Nodup
  | _ => True

instance : DecidablePred Node.HasFileNames
  | .dir entries => inferInstanceAs (Decidable
      ((∀ name ∈ entries.map (·.1), IsFileName name) ∧ (entries.map (·.1)).Nodup))
  | .file _ | .link _ => .isTrue trivial

def Node.WellFormed (node : Node) : Prop := node.All Node.HasFileNames

def FileTree.WellFormed (t : FileTree) : Prop := t.root.WellFormed

instance (t : FileTree) : Decidable t.WellFormed := t.root.decidableAll

theorem wellFormed_dir_cons {name : String} {node : Node} {rest : List (String × Node)} :
    (Node.dir ((name, node) :: rest)).WellFormed ↔
      IsFileName name ∧ name ∉ rest.map (·.1) ∧ node.WellFormed ∧ (Node.dir rest).WellFormed := by
  simp only [Node.WellFormed, Node.All, AllOf, Node.HasFileNames, List.map_cons,
    List.forall_mem_cons, List.nodup_cons]
  grind

/-! ## resolving paths -/

theorem Node.at?_append (node : Node) (place below : Place) :
    node.at? (place ++ below) = (node.at? place).bind (·.at? below) := by
  induction place generalizing node with
  | nil => rfl
  | cons name rest ih =>
    rw [List.cons_append, Node.at?, Node.at?, Option.bind_assoc]
    exact congrArg _ (funext fun child => ih child)

/-- Pieces lead to what is at the place they lead to. -/
theorem Node.at?_of_walk {root node : Node} {followLast : Bool} {links : Nat} {place found : Place}
    {pieces : List String} (h : root.walk followLast links place pieces = .ok (found, node)) :
    root.at? found = some node := by
  fun_induction Node.walk root followLast links place pieces with
  | case1 links place node' hat =>
    cases h
    exact hat
  | case6 links place piece rest entries hdir _ _ target hlookup _ =>
    cases h
    rw [Node.at?_append, hdir, Option.bind_some, Node.at?, Node.child?, hlookup]
    rfl
  | case3 _ _ _ _ _ _ _ ih => exact ih h
  | case4 _ _ _ _ _ _ ih => exact ih h
  | case9 _ _ _ _ _ _ _ _ _ _ _ _ _ _ ih => exact ih h
  | case10 _ _ _ _ _ _ _ _ _ _ _ ih => exact ih h
  | case2 | case5 | case7 | case8 | case11 | case12 => cases h

theorem FileTree.at?_of_resolve {t : FileTree} {followLast : Bool} {p : Path} {place : Place}
    {node : Node} (h : t.resolve followLast p = .ok (place, node)) :
    t.root.at? place = some node := by
  rw [resolve] at h
  split at h
  · cases h
  · exact Node.at?_of_walk h

theorem FileTree.WellFormed.resolve {t : FileTree} (ht : t.WellFormed) {followLast : Bool}
    {p : Path} {place : Place} {node : Node} (h : t.resolve followLast p = .ok (place, node)) :
    node.WellFormed :=
  Node.All.at? ht (t.at?_of_resolve h)

end ResourceAudit
