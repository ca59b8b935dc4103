import Mathlib
import ResourceAudit.Proofs.Distinct
import ResourceAudit.Proofs.FileTree.Listing
import ResourceAudit.Proofs.FileTree.Spelling
import ResourceAudit.Proofs.Version.Order
import ResourceAudit.Toolchain

/-!
# ResourceAudit.Proofs.Toolchain.Discovery

Which toolchains are found.  Those below a root are its inventory, and it has only
one, in whatever order its entries are listed (`IsInventory.eq`): no two entries
have the same name, and names of versions are totally ordered.  Of several roots
that are one directory the first is kept; what is below the others is not looked
at, or nothing is there (`toolchainsIn_eq_nil`).
-/

namespace ResourceAudit

/-- Being the toolchains below a root: one for each entry of its directory that
holds the engine, the newest first. -/
structure IsInventory (t : FileTree) (root : Path) (toolchains : List Toolchain) : Prop where
  mem_iff : ∀ x, x ∈ toolchains ↔ ∃ name ∈ t.names (root.join "sdk"),
    t.isFile (((root.join "sdk").join name).join engineName) = true ∧
      x = ⟨toolchainName, name, (root.join "sdk").join name⟩
  newest_first : toolchains.Pairwise fun x y => compareVersionNames x.version y.version = .gt

/-- What tells roots apart: the components of the path without links, if there is
one, and of the path itself, if not. -/
def rootKey (t : FileTree) (root : Path) : List Component := (rootIdentity t root).components

/-- Being two ways to write one root: the same path, or paths that lead to the same
place. -/
def FileTree.SameRoot (t : FileTree) (root other : Path) : Prop :=
  root.same other = true ∨ ∃ p, t.canonical? root = some p ∧ t.canonical? other = some p

/-! ## the toolchains below a root -/

section Inventory

variable {t : FileTree} {root : Path} {xs ys : List Toolchain}

theorem IsInventory.nodup (h : IsInventory t root xs) : xs.Nodup := by
  refine h.newest_first.imp fun {x y} hnewer heq => ?_
  rw [heq, compareVersionNames_self] at hnewer
  cases hnewer

/-- A root has one inventory. -/
theorem IsInventory.eq (h : IsInventory t root xs) (h' : IsInventory t root ys) : xs = ys := by
  have hperm : xs.Perm ys := by
    rw [List.perm_ext_iff_of_nodup h.nodup h'.nodup]
    intro x
    rw [h.mem_iff, h'.mem_iff]
  refine hperm.eq_of_pairwise (fun x y _ _ hxy hyx => ?_) h.newest_first h'.newest_first
  rw [compareVersionNames_swap, hyx] at hxy
  cases hxy

/-- Toolchains of different versions are sorted to a list that decreases strictly. -/
theorem newestFirst_strict (h : (xs.map Toolchain.version).Nodup) :
    (newestFirst xs).Pairwise fun x y => compareVersionNames x.version y.version = .gt := by
  have hopposite : Std.TransCmp fun a b => compareVersionNames b a := Std.TransCmp.opposite
  have hdistinct : xs.Pairwise fun x y =>
      compareBy (fun a b => compareVersionNames b a) Toolchain.version x y ≠ .eq := by
    refine (List.pairwise_map.1 h).imp fun {x y} hne heq => hne ?_
    rw [compareBy] at heq
    exact (Std.LawfulEqCmp.eq_of_compare heq).symm
  refine (pairwise_mergeSort_lt hdistinct).imp fun {x y} hlt => ?_
  rw [compareBy] at hlt
  rw [compareVersionNames_swap, hlt]
  rfl

/-- The toolchain of an entry has its name as the version. -/
theorem Toolchain.inDir_join (dir : Path) {name : String} (hname : IsFileName name) :
    Toolchain.inDir (dir.join name) = ⟨toolchainName, name, dir.join name⟩ := by
  rw [inDir, Path.fileName, dir.components_join hname, List.getLast?_concat, Option.getD_some]

theorem isInventory_toolchainsIn (hnames : ∀ name ∈ t.names (root.join "sdk"), IsFileName name)
    (hnodup : (t.names (root.join "sdk")).Nodup) : IsInventory t root (toolchainsIn t root) := by
  have hfound : toolchainsIn t root = newestFirst (((t.names (root.join "sdk")).filter fun name =>
      isToolchainDir t ((root.join "sdk").join name)).map fun name =>
        ⟨toolchainName, name, (root.join "sdk").join name⟩) := by
    have hdirs : toolchainsIn t root = newestFirst ((((t.names (root.join "sdk")).map
        (root.join "sdk").join).filter (isToolchainDir t)).map Toolchain.inDir) := by
      rw [FileTree.names, List.map_map]
      rfl
    rw [hdirs, List.filter_map, List.map_map]
    refine congrArg newestFirst (List.map_congr_left fun name hname => ?_)
    exact Toolchain.inDir_join _ (hnames name (List.mem_filter.1 hname).1)
  constructor
  case mem_iff =>
    intro x
    simp only [hfound, newestFirst, List.mem_mergeSort, List.mem_map, List.mem_filter,
      isToolchainDir, and_assoc, eq_comm]
  case newest_first =>
    rw [hfound]
    refine newestFirst_strict ?_
    simpa [Function.comp_def] using hnodup.filter _

theorem FileTree.WellFormed.isInventory_iff (ht : t.WellFormed) :
    IsInventory t root xs ↔ xs = toolchainsIn t root := by
  have hself : IsInventory t root (toolchainsIn t root) :=
    isInventory_toolchainsIn (ht.names _).1 (ht.names _).2
  constructor
  · exact fun h => h.eq hself
  · rintro rfl
    exact hself

/-- The order in which entries are listed does not show. -/
theorem toolchainsIn_relists (ht : t.WellFormed) {other : FileTree} (h : t.Relists other) :
    toolchainsIn other root = toolchainsIn t root := by
  have hperm := h.names_perm (root.join "sdk")
  have hother : IsInventory other root (toolchainsIn other root) :=
    isInventory_toolchainsIn (fun name hname => (ht.names _).1 name (hperm.mem_iff.2 hname))
      (hperm.nodup_iff.1 (ht.names _).2)
  rw [← ht.isInventory_iff]
  constructor
  · intro x
    simp only [hother.mem_iff, hperm.mem_iff, h.isFile_eq]
  · exact hother.newest_first

end Inventory

/-! ## the roots that are looked at -/

section Roots

variable {t : FileTree}

theorem rootKey_of_canonical? {root p : Path} (h : t.canonical? root = some p) :
    rootKey t root = p.components := by
  rw [rootKey, rootIdentity, h, Option.getD_some]

theorem distinctRoots_eq (seen roots : List Path) :
    distinctRoots t seen roots =
      (distinctBy (rootKey t) roots).filter (rootKey t · ∉ seen.map Path.components) := by
  induction roots generalizing seen with
  | nil => rfl
  | cons root rest ih =>
    have hseen : seen.any (rootIdentity t root).same = true ↔
        rootKey t root ∈ seen.map Path.components := by
      simp only [List.any_eq_true, List.mem_map, Path.same, beq_iff_eq, rootKey]
      grind
    rw [distinctRoots, distinctBy, List.filter_cons, List.filter_filter]
    by_cases hold : rootKey t root ∈ seen.map Path.components
    · rw [if_pos (hseen.2 hold), ih, if_neg (by simpa using hold)]
      refine List.filter_congr fun other _ => ?_
      grind
    · rw [if_neg (mt hseen.1 hold), ih, if_pos (by simpa using hold)]
      refine congrArg (root :: ·) (List.filter_congr fun other _ => ?_)
      rw [List.map_cons, show (rootIdentity t root).components = rootKey t root from rfl]
      grind

/-- The first of the roots that are one is kept. -/
theorem distinctRoots_nil (roots : List Path) :
    distinctRoots t [] roots = distinctBy (rootKey t) roots := by
  simp [distinctRoots_eq]

/-- Below another spelling of a root that is not known as the same there is nothing:
it leads to no directory. -/
theorem toolchainsIn_eq_nil {root other : Path} (h : root.same other = true)
    (hkey : rootKey t root ≠ rootKey t other) : toolchainsIn t other = [] := by
  cases hsdk : t.resolve true (other.join "sdk") with
  | error fault =>
    have hlist : t.list? (other.join "sdk") = none := by
      rw [FileTree.list?, FileTree.node?, hsdk]
      rfl
    simp [toolchainsIn, hlist, newestFirst]
  | ok found =>
    exfalso
    apply hkey
    by_cases hother : other.text = ""
    · have hroot : root.text = "" := by
        rwa [← Path.components_eq_nil, eq_of_beq h, Path.components_eq_nil]
      rw [show root = other from congrArg Path.mk (hroot.trans hother.symm)]
    · obtain ⟨place, entries, hdir⟩ := FileTree.exists_dir_of_resolve_join hother (by decide) hsdk
      have hsame : other.same root = true := by rwa [Path.same, Bool.beq_comm]
      have hroot := FileTree.resolve_dir_of_same hsame hdir
      have hcanonical : ∀ {p}, t.resolve true p = .ok (place, .dir entries) →
          t.canonical? p = some place.toPath := by
        intro p hp
        rw [FileTree.canonical?, hp]
        rfl
      rw [rootKey_of_canonical? (hcanonical hdir), rootKey_of_canonical? (hcanonical hroot)]

end Roots

/-! ## discovery -/

/-- The source of what is below roots, without a path that is given explicitly. -/
def ToolchainSource.ofRoots (roots : List Path) : ToolchainSource := ⟨none, roots⟩

namespace ToolchainSource

variable {t other : FileTree} {roots : List Path}

theorem toolchains_ofRoots :
    (ofRoots roots).toolchains t = (distinctBy (rootKey t) roots).flatMap (toolchainsIn t) := by
  rw [← distinctRoots_nil]
  rfl

theorem toolchains_relists (ht : t.WellFormed) (h : t.Relists other) :
    (ofRoots roots).toolchains other = (ofRoots roots).toolchains t := by
  have hkey : rootKey other = rootKey t := by
    funext root
    rw [rootKey, rootKey, rootIdentity, rootIdentity, h.canonical?_eq]
  have hbelow : toolchainsIn other = toolchainsIn t := by
    funext root
    exact toolchainsIn_relists ht h
  rw [toolchains_ofRoots, toolchains_ofRoots, hkey, hbelow]

theorem toolchains_append {root spelling : Path} (hroot : root ∈ roots)
    (h : t.SameRoot root spelling) :
    (ofRoots (roots ++ [spelling])).toolchains t = (ofRoots roots).toolchains t := by
  rw [toolchains_ofRoots, toolchains_ofRoots, distinctBy_concat]
  split
  · rfl
  · next hnew =>
    have hkey : rootKey t root ≠ rootKey t spelling := fun he =>
      hnew (he ▸ List.mem_map_of_mem hroot)
    have hsame : root.same spelling = true := by
      rcases h with hsame | ⟨p, hp, hp'⟩
      · exact hsame
      · exact absurd ((rootKey_of_canonical? hp).trans (rootKey_of_canonical? hp').symm) hkey
    rw [List.flatMap_append, List.flatMap_singleton, toolchainsIn_eq_nil hsame hkey,
      List.append_nil]

theorem locate_eq_ok {s : ToolchainSource} {version : Option String} {x : Toolchain} :
    s.locate t version = .ok x ↔ selectToolchain (s.toolchains t) version = some x := by
  unfold locate
  cases selectToolchain (s.toolchains t) version <;> cases s.explicit <;> cases version <;> simp

theorem locate_congr {s s' : ToolchainSource} (hexplicit : s.explicit = s'.explicit)
    (h : s.toolchains t = s'.toolchains other) (version : Option String) :
    s.locate t version = s'.locate other version := by
  unfold locate
  rw [hexplicit, h]

/-- What is located without a version is the newest below the first root that has
any, of those that are looked at. -/
theorem locate_none (ht : t.WellFormed) {newest : Toolchain} :
    (ofRoots roots).locate t none = .ok newest ↔ ∃ before root after rest,
      distinctBy (rootKey t) roots = before ++ root :: after ∧
        (∀ earlier ∈ before, IsInventory t earlier []) ∧ IsInventory t root (newest :: rest) := by
  simp only [locate_eq_ok, selectToolchain, toolchains_ofRoots, List.head?_flatMap,
    List.findSome?_eq_some_iff, List.head?_eq_none_iff, List.head?_eq_some_iff, ht.isInventory_iff,
    eq_comm (b := toolchainsIn _ _)]
  grind

theorem exists_locate_some {version : String} :
    (∃ x, (ofRoots roots).locate t (some version) = .ok x) ↔
      ∃ x ∈ (ofRoots roots).toolchains t, x.version = version := by
  simp only [locate_eq_ok, selectToolchain, ← Option.isSome_iff_exists, List.find?_isSome,
    beq_iff_eq]

theorem locate_some {version : String} {x : Toolchain} :
    (ofRoots roots).locate t (some version) = .ok x ↔ ∃ before after,
      (ofRoots roots).toolchains t = before ++ x :: after ∧ x.version = version ∧
        ∀ earlier ∈ before, earlier.version ≠ version := by
  simp only [locate_eq_ok, selectToolchain, List.find?_eq_some_iff_append, beq_iff_eq,
    Bool.not_eq_true', beq_eq_false_iff_ne]
  grind

/-- Without a path that is given explicitly, what is found is one inventory after
the other, of the roots of which none before is the same.  It does not depend on the
order in which directories are listed, and another spelling of a root at the end adds
nothing.  Without a version, the newest below the first of these roots that has any is
located; with a version, the first one that has it, if there is one. -/
theorem discovery (ht : t.WellFormed) (roots : List Path) :
    (∃ inventories, List.Forall₂ (IsInventory t) (distinctBy (rootKey t) roots) inventories ∧
      (ofRoots roots).toolchains t = inventories.flatten) ∧
    (∀ other, t.Relists other →
      (ofRoots roots).toolchains other = (ofRoots roots).toolchains t ∧
        ∀ version, (ofRoots roots).locate other version = (ofRoots roots).locate t version) ∧
    (∀ root ∈ roots, ∀ spelling, t.SameRoot root spelling →
      (ofRoots (roots ++ [spelling])).toolchains t = (ofRoots roots).toolchains t ∧
        ∀ version,
          (ofRoots (roots ++ [spelling])).locate t version = (ofRoots roots).locate t version) ∧
    (∀ newest, (ofRoots roots).locate t none = .ok newest ↔ ∃ before root after rest,
      distinctBy (rootKey t) roots = before ++ root :: after ∧
        (∀ earlier ∈ before, IsInventory t earlier []) ∧ IsInventory t root (newest :: rest)) ∧
    (∀ version, (∃ x, (ofRoots roots).locate t (some version) = .ok x) ↔
      ∃ x ∈ (ofRoots roots).toolchains t, x.version = version) ∧
    (∀ version x, (ofRoots roots).locate t (some version) = .ok x ↔ ∃ before after,
      (ofRoots roots).toolchains t = before ++ x :: after ∧ x.version = version ∧
        ∀ earlier ∈ before, earlier.version ≠ version) := by
  refine ⟨⟨(distinctBy (rootKey t) roots).map (toolchainsIn t), ?_, ?_⟩, fun other h => ?_,
    fun root hroot spelling h => ?_, fun _ => locate_none ht, fun _ => exists_locate_some,
    fun _ _ => locate_some⟩
  · rw [List.forall₂_map_right_iff, List.forall₂_same]
    exact fun root _ => ht.isInventory_iff.2 rfl
  · rw [toolchains_ofRoots, List.flatMap_def]
  · have hfound : (ofRoots roots).toolchains other = _ := toolchains_relists ht h
    exact ⟨hfound, locate_congr rfl hfound⟩
  · have hfound := toolchains_append hroot h
    exact ⟨hfound, locate_congr rfl hfound⟩

end ToolchainSource

/-- A directory with the engine. -/
def engineDir : Node := .dir [("MSBuild.dll", .file ⟨#[]⟩)]

/-- Two toolchains, and a directory without an engine. -/
def installedEntries : List (String × Node) :=
  [("9.0.100-rc.1", engineDir), ("9.0.100", engineDir), ("Old", .dir [])]

/-- A tree with toolchains in a directory that a link leads to as well. -/
def installedTree (entries : List (String × Node)) : FileTree :=
  ⟨.dir [("opt", .dir [("sdk", .dir entries)]), ("snap", .link "/opt")], []⟩

theorem discovery_installedTree :
    (installedTree installedEntries).WellFormed ∧
      (installedTree installedEntries).Relists (installedTree installedEntries.reverse) ∧
      (installedTree installedEntries).SameRoot ⟨"/opt"⟩ ⟨"/snap"⟩ ∧
      (ToolchainSource.ofRoots [⟨"/opt"⟩]).toolchains (installedTree installedEntries.reverse) =
        (ToolchainSource.ofRoots [⟨"/opt"⟩]).toolchains (installedTree installedEntries) ∧
      (ToolchainSource.ofRoots [⟨"/opt"⟩, ⟨"/snap"⟩]).toolchains (installedTree installedEntries) =
        (ToolchainSource.ofRoots [⟨"/opt"⟩]).toolchains (installedTree installedEntries) ∧
      ∃ x, (ToolchainSource.ofRoots [⟨"/opt"⟩]).locate (installedTree installedEntries)
        (some "9.0.100") = .ok x := by
  have htree : (installedTree installedEntries).WellFormed := by decide
  have hrelists : (installedTree installedEntries).Relists
      (installedTree installedEntries.reverse) := by
    have hentries : (Node.dir installedEntries).Relists (.dir installedEntries.reverse) :=
      .of_perm (List.reverse_perm _).symm (by decide)
    have hsdk := hentries.cons (.refl (.dir [])) "sdk"
    exact ⟨hsdk.cons (.refl (.dir [("snap", .link "/opt")])) "opt", rfl⟩
  have hsame : (installedTree installedEntries).SameRoot ⟨"/opt"⟩ ⟨"/snap"⟩ :=
    .inr ⟨⟨"/opt"⟩, by cbv, by cbv⟩
  obtain ⟨⟨inventories, hinventories, hfound⟩, horder, hspelling, -, hversion, -⟩ :=
    ToolchainSource.discovery htree [⟨"/opt"⟩]
  refine ⟨htree, hrelists, hsame, (horder _ hrelists).1, (hspelling _ (by simp) _ hsame).1,
    (hversion _).2 ?_⟩
  have hroots : distinctBy (rootKey (installedTree installedEntries)) [⟨"/opt"⟩] = [⟨"/opt"⟩] := rfl
  rw [hroots] at hinventories
  obtain ⟨found, _, hinventory, ⟨⟩, rfl⟩ := List.forall₂_cons_left_iff.1 hinventories
  have hnames : "9.0.100" ∈ (installedTree installedEntries).names (Path.join ⟨"/opt"⟩ "sdk") := by
    have hresolve : (installedTree installedEntries).resolve true (Path.join ⟨"/opt"⟩ "sdk") =
        .ok (["opt", "sdk"], .dir installedEntries) := by cbv
    rw [FileTree.names, FileTree.list?, FileTree.node?, hresolve]
    simp [Except.toOption, installedEntries]
  have hjoin : ((Path.join ⟨"/opt"⟩ "sdk").join "9.0.100").join engineName =
      ⟨"/opt/sdk/9.0.100/MSBuild.dll"⟩ := by decide
  have hpieces : (Text.fields (· == '/') "/opt/sdk/9.0.100/MSBuild.dll".toList).map String.ofList =
      ["", "opt", "sdk", "9.0.100", "MSBuild.dll"] := by decide
  have habsolute : Path.isAbsolute ⟨"/opt/sdk/9.0.100/MSBuild.dll"⟩ = true := by decide
  have hfile : (installedTree installedEntries).isFile
      (((Path.join ⟨"/opt"⟩ "sdk").join "9.0.100").join engineName) = true := by
    rw [hjoin, FileTree.isFile, FileTree.node?, FileTree.resolve, hpieces, habsolute]
    simp [Node.walk, Node.at?, Node.child?, installedTree, installedEntries, engineDir,
      List.lookup_cons, Except.toOption, Node.isFile]
  rw [hfound, List.flatten_cons, List.flatten_nil, List.append_nil]
  exact ⟨_, (hinventory.mem_iff _).2 ⟨_, hnames, hfile, rfl⟩, rfl⟩

end ResourceAudit
