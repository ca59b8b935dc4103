import Mathlib.Data.List.TakeWhile
import ResourceAudit.Proofs.FileTree.Places
import ResourceAudit.Proofs.Path.Joining
import ResourceAudit.Proofs.Path.Order

/-!
# ResourceAudit.Proofs.FileTree.Files

Which files are found below a path.  The walk through a directory finds the
regular files at the places below it that it enters all directories of
(`mem_filesOf`), each under a path of its own (`pairwise_filesOf`), however the
directory is spelled; and it does not matter whether the path leads to the
directory itself or to a link to it (`FileTree.filesBelow_of_resolve`).  So the
default sources of a project are told by their places alone
(`FileTree.scanSources_finds`).
-/

namespace ResourceAudit

/-! ## places that are entered -/

/-- Whether the directories on a way down are entered, of which the first is at
the given depth. -/
def entersAll (enters : Nat → String → Bool) : Nat → List String → Bool
  | _, [] => true
  | depth, name :: rest => enters depth name && entersAll enters (depth + 1) rest

theorem entersAll_isSourceDir_of_one_lt {depth : Nat} (hdepth : 1 < depth) (dirs : List String) :
    entersAll isSourceDir depth dirs = true ↔ ∀ d ∈ dirs, d.toList.head? ≠ some '.' := by
  induction dirs generalizing depth with
  | nil => simp [entersAll]
  | cons name rest ih =>
    have hne : (depth == 1) = false := beq_eq_false_iff_ne.2 (by omega)
    rw [entersAll, Bool.and_eq_true, ih (by omega), isSourceDir, hne, List.forall_mem_cons]
    simp

/-- Directories are entered for default sources if none is hidden and the first
holds no output of builds. -/
theorem entersAll_isSourceDir (dirs : List String) :
    entersAll isSourceDir 1 dirs = true ↔
      (∀ d ∈ dirs, d.toList.head? ≠ some '.') ∧
        dirs.head? ≠ some "bin" ∧ dirs.head? ≠ some "obj" := by
  cases dirs with
  | nil => simp [entersAll]
  | cons name rest =>
    have hhead : ∀ other : String, (name :: rest).head? ≠ some other ↔ name ≠ other := by
      simp
    have houtput : outputDirs.contains name = true ↔ name = "bin" ∨ name = "obj" := by
      simp [outputDirs]
    have hname : isSourceDir 1 name = true ↔
        name.toList.head? ≠ some '.' ∧ name ≠ "bin" ∧ name ≠ "obj" := by
      rw [isSourceDir, beq_self_eq_true, Bool.true_and, Bool.and_eq_true, bne_iff_ne,
        Bool.not_eq_true', ← Bool.not_eq_true, houtput, not_or]
    rw [entersAll, Bool.and_eq_true, entersAll_isSourceDir_of_one_lt (by omega), hname,
      List.forall_mem_cons, hhead, hhead]
    exact and_right_comm

/-! ## files at places -/

/-- Whether a regular file is at a place below a node. -/
def Node.IsFileAt (node : Node) (place : Place) : Prop :=
  ∃ bytes, node.at? place = some (.file bytes)

theorem Node.isFileAt_file {bytes : ByteArray} {place : Place} :
    (Node.file bytes).IsFileAt place ↔ place = [] := by
  cases place with
  | nil => exact ⟨fun _ => rfl, fun _ => ⟨bytes, rfl⟩⟩
  | cons name rest =>
    constructor
    · rintro ⟨_, h⟩
      cases h
    · intro h
      cases h

theorem Node.not_isFileAt_link {target : String} {place : Place} :
    ¬ (Node.link target).IsFileAt place := by
  rintro ⟨bytes, h⟩
  cases place with
  | nil => cases h
  | cons name rest => cases h

theorem Node.isFileAt_cons {node : Node} {name : String} {rest : Place} :
    node.IsFileAt (name :: rest) ↔ ∃ child, node.child? name = some child ∧ child.IsFileAt rest := by
  simp only [IsFileAt, at?, Option.bind_eq_some_iff]
  grind

/-- The way to a file below a directory begins with the name of the first entry
or of another one. -/
theorem exists_isFileAt_dir_cons {name : String} {node : Node} {rest : List (String × Node)}
    (hnew : name ∉ rest.map (·.1)) {Q : Place → Prop} :
    (∃ place, (Node.dir ((name, node) :: rest)).IsFileAt place ∧ Q place) ↔
      (∃ inner, node.IsFileAt inner ∧ Q (name :: inner)) ∨
        ∃ place, (Node.dir rest).IsFileAt place ∧ Q place := by
  have hdir : ∀ entries, ¬ (Node.dir entries).IsFileAt [] := fun entries ⟨_, h⟩ => nomatch h
  constructor
  · rintro ⟨_ | ⟨other, inner⟩, hfile, hQ⟩
    · exact absurd hfile (hdir _)
    · obtain ⟨child, hchild, hinner⟩ := Node.isFileAt_cons.1 hfile
      rw [Node.child?, List.lookup_cons] at hchild
      split at hchild
      · next heq =>
        obtain rfl := Option.some.inj hchild
        exact .inl ⟨inner, hinner, eq_of_beq heq ▸ hQ⟩
      · exact .inr ⟨other :: inner, Node.isFileAt_cons.2 ⟨child, hchild, hinner⟩, hQ⟩
  · rintro (⟨inner, hinner, hQ⟩ | ⟨_ | ⟨other, inner⟩, hfile, hQ⟩)
    · refine ⟨name :: inner, Node.isFileAt_cons.2 ⟨node, ?_, hinner⟩, hQ⟩
      rw [Node.child?, List.lookup_cons_self]
    · exact absurd hfile (hdir _)
    · obtain ⟨child, hchild, hinner⟩ := Node.isFileAt_cons.1 hfile
      refine ⟨other :: inner, Node.isFileAt_cons.2 ⟨child, ?_, hinner⟩, hQ⟩
      have hne : (other == name) = false := beq_eq_false_iff_ne.2 fun heq =>
        hnew (heq ▸ List.mem_map_of_mem (mem_of_lookup hchild))
      rw [Node.child?, List.lookup_cons, hne]
      exact hchild

/-! ## files below a node -/

section Files

variable (enters : Nat → String → Bool)

/-- On the way to a file, an entry has to be entered if it is a directory. -/
theorem entersAll_dropLast_cons {depth : Nat} {name : String} {node : Node} {inner : Place}
    (h : node.IsFileAt inner) :
    entersAll enters depth (name :: inner).dropLast = true ↔
      (node.isDir && !enters depth name) = false ∧
        entersAll enters (depth + 1) inner.dropLast = true := by
  cases inner with
  | nil =>
    obtain ⟨bytes, hnode⟩ := h
    obtain rfl := Option.some.inj hnode
    simp [entersAll, Node.isDir]
  | cons other rest =>
    obtain ⟨child, hchild, -⟩ := Node.isFileAt_cons.1 h
    cases node with
    | file bytes => cases hchild
    | link target => cases hchild
    | dir entries => simp [entersAll, Node.isDir, List.dropLast]

mutual
/-- The walk finds the files at the places that it enters all directories of. -/
theorem mem_filesOf {depth : Nat} {p f : Path} :
    ∀ {node : Node}, node.WellFormed →
      (f ∈ filesOf enters depth p node ↔ ∃ place, node.IsFileAt place ∧
        f = p.below place ∧ entersAll enters (depth + 1) place.dropLast = true)
  | .file bytes, _ => by
    simp only [filesOf, List.mem_singleton, Node.isFileAt_file, exists_eq_left]
    exact (and_iff_left rfl).symm
  | .link target, _ => by
    simp only [filesOf, List.not_mem_nil, Node.not_isFileAt_link, false_and, exists_false]
  | .dir entries, hnode => by
    rw [filesOf]
    exact mem_filesOfEntries hnode

theorem mem_filesOfEntries {depth : Nat} {p f : Path} :
    ∀ {entries : List (String × Node)}, (Node.dir entries).WellFormed →
      (f ∈ filesOfEntries enters depth p entries ↔ ∃ place, (Node.dir entries).IsFileAt place ∧
        f = p.below place ∧ entersAll enters depth place.dropLast = true)
  | [], _ => by
    refine ⟨fun h => ?_, fun ⟨place, ⟨bytes, hfile⟩, _⟩ => ?_⟩
    · rw [filesOfEntries] at h
      cases h
    · cases place with
      | nil => cases hfile
      | cons name rest => cases hfile
  | (name, node) :: rest, hentries => by
    obtain ⟨-, hnew, hnode, hrest⟩ := wellFormed_dir_cons.1 hentries
    rw [filesOfEntries, List.mem_append, mem_filesOfEntries hrest, exists_isFileAt_dir_cons hnew]
    refine or_congr ?_ Iff.rfl
    have hinner : ∀ inner, node.IsFileAt inner →
        (entersAll enters depth (name :: inner).dropLast = true ↔ _) :=
      fun inner => entersAll_dropLast_cons enters
    by_cases hskip : (node.isDir && !enters depth name) = true
    · rw [if_pos hskip]
      simp only [List.not_mem_nil, false_iff, not_exists]
      rintro inner ⟨hfile, -, hall⟩
      rw [hinner inner hfile, hskip] at hall
      cases hall.1
    · rw [if_neg hskip, mem_filesOf hnode]
      refine exists_congr fun inner => and_congr_right fun hfile => and_congr Iff.rfl ?_
      rw [hinner inner hfile, and_iff_right (Bool.eq_false_iff.2 hskip)]
end

/-- Places are told apart by the paths they have below another one. -/
theorem Path.eq_of_same_below {p : Path} {place other : Place}
    (hplace : ∀ name ∈ place, IsFileName name) (hother : ∀ name ∈ other, IsFileName name)
    (h : (p.below place).same (p.below other) = true) : place = other := by
  have hcomponents := eq_of_beq h
  rw [components_below p hplace, components_below p hother, List.append_cancel_left_eq]
    at hcomponents
  exact (List.map_inj_right fun _ _ => Component.name.inj).1 hcomponents

mutual
/-- No two of the files below a node are the same path. -/
theorem pairwise_filesOf {depth : Nat} {p : Path} :
    ∀ {node : Node}, node.WellFormed →
      (filesOf enters depth p node).Pairwise fun f g => f.same g = false
  | .file bytes, _ => by simp [filesOf]
  | .link target, _ => by simp [filesOf]
  | .dir entries, hnode => by
    rw [filesOf]
    exact pairwise_filesOfEntries hnode

theorem pairwise_filesOfEntries {depth : Nat} {p : Path} :
    ∀ {entries : List (String × Node)}, (Node.dir entries).WellFormed →
      (filesOfEntries enters depth p entries).Pairwise fun f g => f.same g = false
  | [], _ => by simp [filesOfEntries]
  | (name, node) :: rest, hentries => by
    obtain ⟨hname, hnew, hnode, hrest⟩ := wellFormed_dir_cons.1 hentries
    rw [filesOfEntries, List.pairwise_append]
    refine ⟨?_, pairwise_filesOfEntries hrest, fun f hf g hg => ?_⟩
    · split
      · exact List.Pairwise.nil
      · exact pairwise_filesOf hnode
    -- two entries differ in the first name below `p`
    · split at hf
      · cases hf
      obtain ⟨inner, ⟨bytes, hinner⟩, rfl, -⟩ := (mem_filesOf enters hnode).1 hf
      obtain ⟨place, ⟨bytes', hplace⟩, rfl, -⟩ := (mem_filesOfEntries enters hrest).1 hg
      refine Bool.eq_false_iff.2 fun hsame => ?_
      have heq : name :: inner = place := Path.eq_of_same_below
        (List.forall_mem_cons.2 ⟨hname, isFileName_of_at? hnode hinner⟩)
        (isFileName_of_at? hrest hplace) hsame
      obtain ⟨child, hchild, -⟩ := Option.bind_eq_some_iff.1 (heq ▸ hplace)
      exact hnew (List.mem_map_of_mem (mem_of_lookup hchild))
end

/-! ## files below a path -/

/-- Being a path below another one, by way of names of files. -/
def Path.IsBelow (f p : Path) : Prop :=
  ∃ names : List String, (∀ name ∈ names, IsFileName name) ∧ f = p.below names

theorem Path.IsBelow.isCanonical {f p : Path} (h : f.IsBelow p) (hp : p.IsCanonical) :
    f.IsCanonical := by
  obtain ⟨names, hnames, rfl⟩ := h
  exact hp.below hnames

theorem Path.IsBelow.startsWith {f p : Path} (h : f.IsBelow p) : f.startsWith p = true := by
  obtain ⟨names, hnames, rfl⟩ := h
  rw [Path.startsWith, components_below p hnames, List.isPrefixOf_iff_prefix]
  exact List.prefix_append _ _

/-- The files below a path are those of a node that it leads to. -/
theorem FileTree.exists_resolve_of_filesBelow {t : FileTree} {p : Path} {files : List Path}
    (h : t.filesBelow enters p = .ok files) :
    ∃ followLast place node, t.resolve followLast p = .ok (place, node) ∧
      files = filesOf enters 0 p node := by
  simp only [filesBelow, bind, Except.bind, pure, Except.pure] at h
  split at h
  · cases h
  · next hfound =>
    split at h
    · -- the path leads to a link, which is followed to a directory only
      split at h
      · cases h
      · next hfollowed =>
        split at h
        · cases h
          exact ⟨true, _, _, hfollowed, by rw [filesOf]⟩
        · cases h
          exact ⟨false, _, _, hfound, by rw [filesOf]⟩
    · cases h
      exact ⟨false, _, _, hfound, rfl⟩

section WellFormed

variable {t : FileTree} (ht : t.WellFormed) {p : Path} {files : List Path}
  (h : t.filesBelow enters p = .ok files)

include ht h

theorem FileTree.WellFormed.exists_filesOf :
    ∃ node : Node, node.WellFormed ∧ files = filesOf enters 0 p node := by
  obtain ⟨_, _, node, hnode, hfiles⟩ := t.exists_resolve_of_filesBelow enters h
  exact ⟨node, ht.resolve hnode, hfiles⟩

theorem FileTree.WellFormed.exists_place_of_mem_filesBelow {f : Path} (hf : f ∈ files) :
    ∃ place : Place, (∀ name ∈ place, IsFileName name) ∧ f = p.below place ∧
      entersAll enters 1 place.dropLast = true := by
  obtain ⟨node, hnode, rfl⟩ := ht.exists_filesOf enters h
  obtain ⟨place, ⟨bytes, hplace⟩, hf, henters⟩ := (mem_filesOf enters hnode).1 hf
  exact ⟨place, isFileName_of_at? hnode hplace, hf, henters⟩

theorem FileTree.WellFormed.isBelow_of_mem_filesBelow {f : Path} (hf : f ∈ files) :
    f.IsBelow p := by
  obtain ⟨place, hplace, hf, -⟩ := ht.exists_place_of_mem_filesBelow enters h hf
  exact ⟨place, hplace, hf⟩

/-- No two of the files below a path are the same. -/
theorem FileTree.WellFormed.pairwise_filesBelow :
    files.Pairwise fun f g => f.same g = false := by
  obtain ⟨node, hnode, rfl⟩ := ht.exists_filesOf enters h
  exact pairwise_filesOf enters hnode

end WellFormed

end Files

/-! ## links to directories -/

/-- Pieces that lead to a node through links lead to the same place, or to a link,
if the last link is not followed. -/
theorem Node.walk_false_of_walk_true {root : Node} {links : Nat} {place found : Place}
    {pieces : List String} {node : Node}
    (h : root.walk true links place pieces = .ok (found, node)) :
    root.walk false links place pieces = .ok (found, node) ∨
      ∃ last target, root.walk false links place pieces = .ok (last, .link target) := by
  fun_induction Node.walk root true links place pieces with
  | case1 links place node' hat =>
    left
    rw [Node.walk, hat]
    exact h
  | case3 links place piece rest entries hat hpiece ih =>
    rw [Node.walk, hat]
    dsimp only
    rw [if_pos hpiece]
    exact ih h
  | case4 links place rest entries hat hpiece ih =>
    rw [Node.walk, hat]
    dsimp only
    rw [if_neg hpiece, if_pos rfl]
    exact ih h
  | case9 place piece rest entries hat hpiece hup target hlookup _ links start inner htarget ih =>
    rw [Node.walk, hat]
    dsimp only
    rw [if_neg hpiece, if_neg hup, hlookup]
    dsimp only
    cases hrest : rest.isEmpty with
    | true => exact .inr ⟨_, target, rfl⟩
    | false =>
      rw [Bool.false_and, if_neg Bool.false_ne_true, if_neg htarget]
      exact ih h
  | case10 links place piece rest entries hat hpiece hup child hchild hlookup ih =>
    rw [Node.walk, hat]
    dsimp only
    rw [if_neg hpiece, if_neg hup, hlookup]
    cases child with
    | link target => exact absurd rfl (hchild target)
    | file bytes => exact ih h
    | dir inner => exact ih h
  | case6 _ _ _ _ _ _ _ _ _ _ hlast =>
    rw [Bool.not_true, Bool.and_false] at hlast
    cases hlast
  | case2 | case5 | case7 | case8 | case11 | case12 => cases h

/-- The files below a directory are found whether a path leads to it or to a link
to it. -/
theorem FileTree.filesBelow_of_resolve {t : FileTree} (enters : Nat → String → Bool) {p : Path}
    {place : Place} {entries : List (String × Node)}
    (h : t.resolve true p = .ok (place, .dir entries)) :
    t.filesBelow enters p = .ok (filesOf enters 0 p (.dir entries)) := by
  have hfalse : t.resolve false p = .ok (place, .dir entries) ∨
      ∃ last target, t.resolve false p = .ok (last, .link target) := by
    rw [resolve] at h ⊢
    split at h
    · cases h
    · next htext =>
      rw [if_neg htext]
      exact Node.walk_false_of_walk_true h
  rcases hfalse with hfalse | ⟨last, target, hfalse⟩
  · rw [filesBelow, hfalse]
    rfl
  · rw [filesBelow, hfalse]
    simp only [bind, Except.bind, h, pure, Except.pure, filesOf]

/-! ## sources -/

theorem FileTree.exists_filesBelow_of_scanSources {t : FileTree} {dir : Path} {files : List Path}
    (h : t.scanSources dir = .ok files) :
    ∃ found, t.filesBelow isSourceDir dir = .ok found ∧
      files = sortPaths (found.filter Path.isSource) := by
  rw [scanSources] at h
  cases hbelow : t.filesBelow isSourceDir dir with
  | error fault =>
    rw [hbelow] at h
    cases h
  | ok found =>
    rw [hbelow] at h
    exact ⟨found, rfl, (Except.ok.inj h).symm⟩

/-- Generated sources are files below their directory. -/
theorem FileTree.exists_filesBelow_of_mem_scanGenerated {t : FileTree} {dir f : Path}
    (h : f ∈ t.scanGenerated dir) :
    ∃ found, t.filesBelow (fun _ _ => true) dir = .ok found ∧ f ∈ found := by
  rw [scanGenerated] at h
  split at h
  · next found hfound =>
    split at h
    · rw [mem_sortPaths, List.mem_filter] at h
      exact ⟨found, hfound, h.1⟩
    · cases h
  · cases h

section Sources

variable {t : FileTree} (ht : t.WellFormed) {dir f : Path}

include ht

theorem FileTree.WellFormed.exists_place_of_mem_scanSources {files : List Path}
    (h : t.scanSources dir = .ok files) (hf : f ∈ files) :
    ∃ place : Place, (∀ name ∈ place, IsFileName name) ∧ f = dir.below place ∧
      entersAll isSourceDir 1 place.dropLast = true := by
  obtain ⟨found, hfound, rfl⟩ := t.exists_filesBelow_of_scanSources h
  rw [mem_sortPaths, List.mem_filter] at hf
  exact ht.exists_place_of_mem_filesBelow _ hfound hf.1

theorem FileTree.WellFormed.isBelow_of_mem_scanSources {files : List Path}
    (h : t.scanSources dir = .ok files) (hf : f ∈ files) : f.IsBelow dir := by
  obtain ⟨place, hplace, hf, -⟩ := ht.exists_place_of_mem_scanSources h hf
  exact ⟨place, hplace, hf⟩

/-- The default sources of a project come in the order of paths, each once. -/
theorem FileTree.WellFormed.pairwise_scanSources {files : List Path}
    (h : t.scanSources dir = .ok files) : files.Pairwise fun f g => f.compare g = .lt := by
  obtain ⟨found, hfound, rfl⟩ := t.exists_filesBelow_of_scanSources h
  exact sortPaths_strict ((ht.pairwise_filesBelow _ hfound).filter _)

theorem FileTree.WellFormed.isBelow_of_mem_scanGenerated (hf : f ∈ t.scanGenerated dir) :
    f.IsBelow dir := by
  obtain ⟨found, hfound, hf⟩ := t.exists_filesBelow_of_mem_scanGenerated hf
  exact ht.isBelow_of_mem_filesBelow _ hfound hf

end Sources

/-! ## names of sources -/

/-- Being the name of a source file: it ends in a dot and `cs` in letters of
either case, and something stands before the dot. -/
def IsSourceName (name : String) : Prop :=
  ∃ stem extension, stem ≠ [] ∧ name.toList = stem ++ '.' :: extension ∧
    extension.map Char.toLower = ['c', 's']

/-- What stands behind the last dot of a name. -/
theorem takeWhile_reverse_append (stem : List Char) {extension : List Char}
    (hdot : '.' ∉ extension) :
    ((stem ++ '.' :: extension).reverse.takeWhile (· != '.')).reverse = extension := by
  have hall : ∀ c ∈ extension.reverse, (c != '.') = true := fun c hc =>
    bne_iff_ne.2 fun he => hdot (he ▸ List.mem_reverse.1 hc)
  rw [List.reverse_append, List.reverse_cons, List.append_assoc, List.takeWhile_append_of_pos hall,
    List.singleton_append, List.takeWhile_cons_of_neg (by simp), List.append_nil,
    List.reverse_reverse]

theorem divideName_append {stem extension : List Char} (hstem : stem ≠ [])
    (hdot : '.' ∉ extension) :
    divideName (stem ++ '.' :: extension) = (stem, some extension) := by
  have hlength : (stem ++ '.' :: extension).length - extension.length - 1 = stem.length := by
    rw [List.length_append, List.length_cons]
    omega
  have hne : (extension.length == (stem ++ '.' :: extension).length) = false :=
    beq_eq_false_iff_ne.2 (by simp; omega)
  rw [divideName]
  simp only [takeWhile_reverse_append stem hdot, hlength, List.take_left, hne, Bool.false_or,
    List.isEmpty_iff, hstem, if_false]

/-- A dot at the beginning divides nothing. -/
theorem divideName_dot {name : List Char} (hdot : '.' ∉ name) :
    (divideName ('.' :: name)).2 = none := by
  have htake := takeWhile_reverse_append [] hdot
  have hlength : ('.' :: name).length - name.length - 1 = 0 := by
    rw [List.length_cons]
    omega
  rw [List.nil_append] at htake
  rw [divideName]
  simp only [htake, hlength, List.take_zero, List.isEmpty_nil, Bool.or_true, if_true]

theorem divideName_of_not_mem {name : List Char} (hdot : '.' ∉ name) :
    (divideName name).2 = none := by
  have hall : ∀ c ∈ name.reverse, (c != '.') = true := fun c hc =>
    bne_iff_ne.2 fun he => hdot (he ▸ List.mem_reverse.1 hc)
  rw [divideName]
  simp only [List.takeWhile_eq_self_iff.2 hall, List.reverse_reverse, beq_self_eq_true,
    Bool.true_or, if_true]

theorem eq_append_of_divideName {name extension : List Char}
    (h : (divideName name).2 = some extension) :
    ∃ stem, stem ≠ [] ∧ name = stem ++ '.' :: extension := by
  by_cases hmem : '.' ∈ name
  · obtain ⟨behind, before, hreverse, hdot⟩ :=
      List.eq_append_cons_of_mem (List.mem_reverse.2 hmem)
    have hname : name = before.reverse ++ '.' :: behind.reverse := by
      rw [← List.reverse_reverse name, hreverse]
      simp
    have hdot' : '.' ∉ behind.reverse := mt List.mem_reverse.1 hdot
    rw [hname] at h ⊢
    by_cases hstem : before.reverse = []
    · rw [hstem, List.nil_append, divideName_dot hdot'] at h
      cases h
    · rw [divideName_append hstem hdot', Option.some.injEq] at h
      exact ⟨_, hstem, h ▸ rfl⟩
  · rw [divideName_of_not_mem hmem] at h
    cases h

theorem Path.isSource_iff {p : Path} {name : String} (h : p.fileName = some name) :
    p.isSource = true ↔ IsSourceName name := by
  have hextension : p.isSource = true ↔ ∃ extension, (divideName name.toList).2 = some extension ∧
      extension.map Char.toLower = ['c', 's'] := by
    rw [isSource, Path.extension, h, Option.bind_some]
    cases (divideName name.toList).2 <;> simp
  rw [hextension, IsSourceName]
  constructor
  · rintro ⟨extension, hsome, hlower⟩
    obtain ⟨stem, hstem, hname⟩ := eq_append_of_divideName hsome
    exact ⟨stem, extension, hstem, hname, hlower⟩
  · rintro ⟨stem, extension, hstem, hname, hlower⟩
    have hdot : '.' ∉ extension := fun hmem => by
      have hmap := List.mem_map_of_mem (f := Char.toLower) hmem
      rw [hlower] at hmap
      revert hmap
      decide
    exact ⟨extension, by rw [hname, divideName_append hstem hdot], hlower⟩

/-! ## scanning -/

/-- The files below a directory that a path leads to, at places of the tree. -/
theorem FileTree.mem_filesOf_of_resolve {t : FileTree} (ht : t.WellFormed)
    (enters : Nat → String → Bool) {p f : Path} {place : Place} {entries : List (String × Node)}
    (h : t.resolve true p = .ok (place, .dir entries)) :
    f ∈ filesOf enters 0 p (.dir entries) ↔ ∃ (dirs : List String) (name : String),
      t.root.IsFileAt (place ++ dirs ++ [name]) ∧ f = p.below (dirs ++ [name]) ∧
        entersAll enters 1 dirs = true := by
  have hat : ∀ inner, (Node.dir entries).IsFileAt inner ↔ t.root.IsFileAt (place ++ inner) := by
    intro inner
    rw [Node.IsFileAt, Node.IsFileAt, Node.at?_append, t.at?_of_resolve h, Option.bind_some]
  rw [mem_filesOf enters (ht.resolve h)]
  constructor
  · rintro ⟨inner, hfile, rfl, henters⟩
    rcases List.eq_nil_or_concat inner with rfl | ⟨dirs, name, rfl⟩
    · obtain ⟨bytes, hbytes⟩ := hfile
      cases hbytes
    · rw [List.concat_eq_append, List.dropLast_concat] at henters
      rw [List.concat_eq_append] at hfile ⊢
      exact ⟨dirs, name, by rw [List.append_assoc]; exact (hat _).1 hfile, rfl, henters⟩
  · rintro ⟨dirs, name, hfile, rfl, henters⟩
    rw [List.append_assoc] at hfile
    exact ⟨dirs ++ [name], (hat _).2 hfile, rfl, by rwa [List.dropLast_concat]⟩

theorem FileTree.scanSources_of_resolve {t : FileTree} {dir : Path} {place : Place}
    {entries : List (String × Node)} (h : t.resolve true dir = .ok (place, .dir entries)) :
    t.scanSources dir =
      .ok (sortPaths ((filesOf isSourceDir 0 dir (.dir entries)).filter Path.isSource)) := by
  rw [scanSources, t.filesBelow_of_resolve isSourceDir h]
  rfl

/-- The default sources below a directory are the regular files with names of
sources such that no directory between is hidden and the first of them holds no
output of builds.  They come in the order of paths, each once. -/
theorem FileTree.scanSources_finds {t : FileTree} (ht : t.WellFormed) {dir : Path} {place : Place}
    {entries : List (String × Node)} (hdir : t.resolve true dir = .ok (place, .dir entries)) :
    ∃ files, t.scanSources dir = .ok files ∧
      (∀ f, f ∈ files ↔ ∃ (dirs : List String) (name : String),
        t.root.IsFileAt (place ++ dirs ++ [name]) ∧ f = dir.below (dirs ++ [name]) ∧
          IsSourceName name ∧ (∀ d ∈ dirs, d.toList.head? ≠ some '.') ∧
          dirs.head? ≠ some "bin" ∧ dirs.head? ≠ some "obj") ∧
      files.Pairwise fun f g => f.compare g = .lt := by
  have hscan := t.scanSources_of_resolve hdir
  refine ⟨_, hscan, fun f => ?_, ht.pairwise_scanSources hscan⟩
  have hsource : ∀ {dirs : List String} {name : String},
      t.root.IsFileAt (place ++ dirs ++ [name]) →
        ((dir.below (dirs ++ [name])).isSource = true ↔ IsSourceName name) := by
    rintro dirs name ⟨bytes, hfile⟩
    have hname : IsFileName name := isFileName_of_at? ht hfile name (by simp)
    exact Path.isSource_iff (dir.fileName_below dirs hname)
  rw [mem_sortPaths, List.mem_filter, t.mem_filesOf_of_resolve ht isSourceDir hdir]
  constructor
  · rintro ⟨⟨dirs, name, hfile, rfl, henters⟩, hname⟩
    exact ⟨dirs, name, hfile, rfl, (hsource hfile).1 hname, (entersAll_isSourceDir dirs).1 henters⟩
  · rintro ⟨dirs, name, hfile, rfl, hname, henters⟩
    exact ⟨⟨dirs, name, hfile, rfl, (entersAll_isSourceDir dirs).2 henters⟩, (hsource hfile).2 hname⟩

/-- A directory behind a link, with directories and files of all kinds. -/
def linkedTree : FileTree :=
  ⟨.dir [("Current", .link "App"), ("App", .dir [("obj", .dir [("Made.cs", .file ⟨#[]⟩)]),
    ("Main.CS", .file ⟨#[]⟩), (".git", .dir [("Hook.cs", .file ⟨#[]⟩)]), ("Alias.cs", .link "Main.CS"),
    ("src", .dir [("bin", .dir [(".Kept.cs", .file ⟨#[]⟩)])])])], []⟩

theorem scanSources_linkedTree :
    linkedTree.WellFormed ∧ (∃ entries, linkedTree.resolve true ⟨"/Current"⟩ =
        .ok (["App"], .dir entries)) ∧
      ∃ files, linkedTree.scanSources ⟨"/Current"⟩ = .ok files ∧
        ⟨"/Current/Main.CS"⟩ ∈ files ∧ ⟨"/Current/src/bin/.Kept.cs"⟩ ∈ files ∧
        ⟨"/Current/Alias.cs"⟩ ∉ files := by
  have htree : linkedTree.WellFormed := by decide
  have hpieces : (Text.fields (· == '/') "/Current".toList).map String.ofList = ["", "Current"] := by
    decide
  have habsolute : Path.isAbsolute ⟨"/Current"⟩ = true := by decide
  have hdir : ∃ entries, linkedTree.resolve true ⟨"/Current"⟩ = .ok (["App"], .dir entries) := by
    rw [FileTree.resolve, hpieces, habsolute]
    simp [Node.walk, Node.at?, Node.child?, linkedTree, List.lookup_cons, Text.fields, maxLinks]
  refine ⟨htree, hdir, ?_⟩
  obtain ⟨entries, hdir⟩ := hdir
  obtain ⟨files, hfiles, hmem, -⟩ := FileTree.scanSources_finds htree hdir
  refine ⟨files, hfiles, ?_, ?_, fun halias => ?_⟩
  · refine (hmem _).2 ⟨[], "Main.CS", ⟨⟨#[]⟩, rfl⟩, by decide, ?_, by decide⟩
    exact ⟨"Main".toList, "CS".toList, by decide⟩
  · refine (hmem _).2 ⟨["src", "bin"], ".Kept.cs", ⟨⟨#[]⟩, rfl⟩, by decide, ?_, by decide⟩
    exact ⟨".Kept".toList, "cs".toList, by decide⟩
  · obtain ⟨dirs, name, ⟨bytes, hfile⟩, heq, -⟩ := (hmem _).1 halias
    rw [List.append_assoc] at hfile
    have hplace : dirs ++ [name] = ["Alias.cs"] := by
      have hnames := isFileName_of_at? htree hfile
      refine Path.eq_of_same_below (p := ⟨"/Current"⟩)
        (fun other hother => hnames other (List.mem_append_right _ hother)) (by decide) ?_
      rw [← heq]
      decide
    rw [hplace] at hfile
    cases hfile

end ResourceAudit
