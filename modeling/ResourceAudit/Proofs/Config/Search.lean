import Mathlib.Data.List.Infix
import ResourceAudit.Config.Search
import ResourceAudit.Proofs.FileTree.Spelling

/-!
# ResourceAudit.Proofs.Config.Search

The configuration that is found for a directory.  The search goes through the
directory and those around it, up to the root (`Place.ancestors_toPath`), and gets as
far as no nearer one holds a repository (`FileTree.Reaches`); of the directories that it
reaches and that have a configuration, the nearest one counts.  So with a repository
around the directory, only the directories from there up to the repository matter.  What
stands elsewhere is asked for only where a link leads there
(`FileTree.has_iff_of_isPlainAlong`).
-/

namespace ResourceAudit

open ResourceAudit.Text

/-! ## directories around a place -/

namespace Place

theorem parent_toPath_nil : (toPath []).parent = none := by decide

theorem pieces_toPath {place : Place} (h : ∀ name ∈ place, IsFileName name) (hne : place ≠ []) :
    (toPath place).pieces = ⟨.root, place.map String.toList⟩ := by
  have hslash : ∀ piece ∈ place.map String.toList, '/' ∉ piece :=
    List.forall_mem_map.2 fun name hname => (h name hname).2.2.2
  rw [Path.pieces, toList_toPath]
  exact congrArg (Pieces.mk .root) (fields_intercalate (by simpa using hne) hslash)

theorem toPath_pieces (place : Place) :
    Pieces.toPath ⟨.root, place.map String.toList⟩ = place.toPath := by
  rw [Pieces.toPath, Path.mk.injEq, ← String.toList_inj, String.toList_ofList, toList_toPath,
    join_eq_intercalate]
  rfl

theorem trimPieces_names {place : Place} (h : ∀ name ∈ place, IsFileName name) :
    trimPieces (place.map String.toList) = place.map String.toList := by
  rcases List.eq_nil_or_concat place with rfl | ⟨others, last, rfl⟩
  · rfl
  · have hinner : (Component.name last).IsInner := h last (by simp)
    have hvoid : isVoid last.toList = false := hinner.piece.2.1
    simp [trimPieces, hvoid]

theorem parent_toPath_concat {place : Place} {name : String}
    (h : ∀ other ∈ place ++ [name], IsFileName other) :
    (toPath (place ++ [name])).parent = some place.toPath := by
  have hplace : ∀ other ∈ place, IsFileName other := fun other hother =>
    h other (List.mem_append_left _ hother)
  have hdrop : ((place ++ [name]).map String.toList).dropLast = place.map String.toList := by simp
  obtain ⟨first, rest, hcons⟩ : ∃ first rest, (place ++ [name]).map String.toList = first :: rest :=
    List.exists_cons_of_ne_nil (by simp)
  rw [Path.parent, pieces_toPath h (by simp)]
  dsimp only
  rw [trimPieces_names h, hcons]
  dsimp only
  rw [← hcons, hdrop, trimPieces_names hplace, toPath_pieces]

theorem ancestorsWithin_toPath {place : Place} (h : ∀ name ∈ place, IsFileName name) {fuel : Nat}
    (hfuel : place.length < fuel) :
    place.toPath.ancestorsWithin fuel = place.inits.reverse.map toPath := by
  induction place using List.reverseRecOn generalizing fuel with
  | nil =>
    obtain ⟨fuel, rfl⟩ := Nat.exists_eq_succ_of_ne_zero (Nat.ne_of_gt hfuel)
    rw [Path.ancestorsWithin, parent_toPath_nil]
    rfl
  | append_singleton place name ih =>
    rw [List.length_append, List.length_singleton] at hfuel
    obtain ⟨fuel, rfl⟩ := Nat.exists_eq_succ_of_ne_zero (Nat.ne_of_gt (Nat.zero_lt_of_lt hfuel))
    have hplace : ∀ other ∈ place, IsFileName other := fun other hother =>
      h other (List.mem_append_left _ hother)
    rw [Path.ancestorsWithin, parent_toPath_concat h, Option.elim_some,
      ih hplace (Nat.lt_of_succ_lt_succ hfuel)]
    simp [List.inits_append]

/-- The directories from a place on are it and those around it, and the last is the
root. -/
theorem ancestors_toPath {place : Place} (h : ∀ name ∈ place, IsFileName name) :
    place.toPath.ancestors = place.inits.reverse.map toPath := by
  rw [Path.ancestors, components_toPath h, List.length_cons, List.length_map]
  exact ancestorsWithin_toPath h (by omega)

end Place

/-! ## what the search reaches -/

/-- Having an entry of a name, a link only if it leads to something. -/
def FileTree.Has (t : FileTree) (dir : Place) (name : String) : Prop :=
  t.exists (dir.toPath.join name) = true

instance (t : FileTree) (dir : Place) (name : String) : Decidable (t.Has dir name) :=
  inferInstanceAs (Decidable (t.exists (dir.toPath.join name) = true))

/-- The search from a directory gets to one around it, as no nearer one holds a
repository. -/
structure FileTree.Reaches (t : FileTree) (start dir : Place) : Prop where
  isPrefix : dir <+: start
  not_has : ∀ e, dir <+: e → e <+: start → e ≠ dir → ¬ t.Has e ".git"

/-- A directory that has a configuration and that the search from `start` gets to. -/
def FileTree.Governs (t : FileTree) (start dir : Place) : Prop :=
  t.Reaches start dir ∧ t.Has dir configFileName

/-- The nearest directory that holds a repository. -/
def FileTree.IsRepository (t : FileTree) (start dir : Place) : Prop :=
  t.Reaches start dir ∧ t.Has dir ".git"

/-- No link stands on the way down from a node, and none is the configuration or the
repository of a directory on the way. -/
def Node.IsPlainAlong (node : Node) (below : Place) : Prop :=
  ∀ way, way <+: below → ∀ target, node.at? way ≠ some (.link target) ∧
    ∀ name ∈ [configFileName, ".git"], node.at? (way ++ [name]) ≠ some (.link target)

namespace FileTree

variable {t : FileTree} {start dir : Place}

/-- The directory itself is never out of reach. -/
theorem reaches_self : t.Reaches start start :=
  ⟨List.prefix_rfl, fun _ hle he hne => absurd (he.eq_of_length_le hle.length_le) hne⟩

theorem reaches_nil : t.Reaches [] dir ↔ dir = [] := by
  refine ⟨fun h => List.prefix_nil.1 h.isPrefix, ?_⟩
  rintro rfl
  exact reaches_self

theorem reaches_concat {name : String} : t.Reaches (start ++ [name]) dir ↔
    dir = start ++ [name] ∨ ¬ t.Has (start ++ [name]) ".git" ∧ t.Reaches start dir := by
  constructor
  · rintro ⟨hbegins, hnot⟩
    rcases List.prefix_concat_iff.1 hbegins with rfl | hdir
    · exact .inl rfl
    · have hne : start ++ [name] ≠ dir := by
        rintro rfl
        have hlength := hdir.length_le
        rw [List.length_append, List.length_singleton] at hlength
        omega
      exact .inr ⟨hnot _ hbegins List.prefix_rfl hne, hdir, fun e hle he =>
        hnot e hle (he.trans (List.prefix_append _ _))⟩
  · rintro (rfl | ⟨hhas, hdir, hnot⟩)
    · exact reaches_self
    · refine ⟨hdir.trans (List.prefix_append _ _), fun e hle he hne => ?_⟩
      rcases List.prefix_concat_iff.1 he with rfl | he
      · exact hhas
      · exact hnot e hle he hne

theorem isRepository_concat {name : String} (h : t.Has start ".git")
    (hname : ¬ t.Has (start ++ [name]) ".git") : t.IsRepository (start ++ [name]) start :=
  ⟨reaches_concat.2 (.inr ⟨hname, reaches_self⟩), h⟩

/-- A search that gets to a directory gets to all from where it began up to there. -/
theorem IsRepository.reaches_iff {g : Place} (h : t.IsRepository start g) :
    t.Reaches start dir ↔ g <+: dir ∧ dir <+: start := by
  obtain ⟨⟨hg, hnot⟩, hhas⟩ := h
  constructor
  · rintro ⟨hdir, hnot'⟩
    refine ⟨?_, hdir⟩
    rcases List.prefix_or_prefix_of_prefix hg hdir with hle | hle
    · exact hle
    · by_cases heq : g = dir
      · rw [heq]
      · exact absurd hhas (hnot' g hle hg heq)
  · rintro ⟨hle, hdir⟩
    refine ⟨hdir, fun e hdire he hne => hnot e (hle.trans hdire) he ?_⟩
    rintro rfl
    exact hne (hle.eq_of_length_le hdire.length_le)

/-! ## what is found -/

theorem findConfig_nil : findConfig t (Place.toPath []) =
    if t.Has [] configFileName then some ((Place.toPath []).join configFileName) else none := by
  have hgit : ∀ b : Bool, (if b = true then none else findConfigIn t []) = none := by
    intro b
    cases b <;> rfl
  rw [findConfig, Place.ancestors_toPath (by simp)]
  exact congrArg (ite _ _) (hgit _)

theorem findConfig_concat {name : String} (h : ∀ other ∈ start ++ [name], IsFileName other) :
    findConfig t (Place.toPath (start ++ [name])) =
      if t.Has (start ++ [name]) configFileName then
        some ((Place.toPath (start ++ [name])).join configFileName)
      else if t.Has (start ++ [name]) ".git" then none
      else findConfig t start.toPath := by
  have hstart : ∀ other ∈ start, IsFileName other := fun other hother =>
    h other (List.mem_append_left _ hother)
  have hinits : (start ++ [name]).inits.reverse = (start ++ [name]) :: start.inits.reverse := by
    simp [List.inits_append]
  rw [findConfig, findConfig, Place.ancestors_toPath h, Place.ancestors_toPath hstart, hinits,
    List.map_cons, findConfigIn]
  rfl

/-- The search finds the configuration of the nearest directory that has one and that
it gets to, or there is no such directory. -/
theorem findConfig_nearest_or_none (h : ∀ name ∈ start, IsFileName name) :
    (∃ dir, t.Governs start dir ∧ (∀ e, t.Governs start e → e <+: dir) ∧
        findConfig t start.toPath = some (dir.toPath.join configFileName)) ∨
      (∀ dir, ¬ t.Governs start dir) ∧ findConfig t start.toPath = none := by
  induction start using List.reverseRecOn with
  | nil =>
    rw [findConfig_nil]
    split
    · next hhas =>
      exact .inl ⟨[], ⟨reaches_self, hhas⟩, fun e he => he.1.isPrefix, rfl⟩
    · next hhas =>
      refine .inr ⟨fun dir hdir => hhas ?_, rfl⟩
      exact reaches_nil.1 hdir.1 ▸ hdir.2
  | append_singleton start name ih =>
    rw [findConfig_concat h]
    split
    · next hhas =>
      exact .inl ⟨_, ⟨reaches_self, hhas⟩, fun e he => he.1.isPrefix, rfl⟩
    · next hhas =>
      have hgoverns : ∀ dir, t.Governs (start ++ [name]) dir ↔
          ¬ t.Has (start ++ [name]) ".git" ∧ t.Governs start dir := by
        intro dir
        rw [Governs, Governs, reaches_concat]
        constructor
        · rintro ⟨rfl | ⟨hgit, hdir⟩, hconfig⟩
          · exact absurd hconfig hhas
          · exact ⟨hgit, hdir, hconfig⟩
        · exact fun ⟨hgit, hdir, hconfig⟩ => ⟨.inr ⟨hgit, hdir⟩, hconfig⟩
      simp only [hgoverns]
      split
      · next hgit => exact .inr ⟨fun dir hdir => hdir.1 hgit, rfl⟩
      · next hgit =>
        simp only [hgit, not_false_eq_true, true_and]
        exact ih fun other hother => h other (List.mem_append_left _ hother)

theorem findConfig_eq_some_iff (h : ∀ name ∈ start, IsFileName name) {p : Path} :
    findConfig t start.toPath = some p ↔ ∃ dir, t.Governs start dir ∧
      (∀ e, t.Governs start e → e <+: dir) ∧ p = dir.toPath.join configFileName := by
  rcases t.findConfig_nearest_or_none h with ⟨dir, hdir, hnearest, hfound⟩ | ⟨hnone, hfound⟩
  · rw [hfound, Option.some.injEq]
    constructor
    · exact fun hp => ⟨dir, hdir, hnearest, hp.symm⟩
    · rintro ⟨other, hother, hnearest', rfl⟩
      rw [(hnearest' dir hdir).eq_of_length_le (hnearest other hother).length_le]
  · rw [hfound]
    constructor
    · exact fun hp => by cases hp
    · exact fun ⟨dir, hdir, _⟩ => absurd hdir (hnone dir)

theorem findConfig_eq_none_iff (h : ∀ name ∈ start, IsFileName name) :
    findConfig t start.toPath = none ↔ ∀ dir, ¬ t.Governs start dir := by
  rcases t.findConfig_nearest_or_none h with ⟨dir, hdir, -, hfound⟩ | ⟨hnone, hfound⟩
  · rw [hfound]
    exact ⟨fun hp => (by cases hp), fun hnone => absurd hdir (hnone dir)⟩
  · exact ⟨fun _ => hnone, fun _ => hfound⟩

/-- What is found depends on nothing but what governs. -/
theorem findConfig_congr (h : ∀ name ∈ start, IsFileName name) {other : FileTree}
    (heq : ∀ dir, other.Governs start dir ↔ t.Governs start dir) :
    findConfig other start.toPath = findConfig t start.toPath := by
  refine Option.ext fun p => ?_
  simp only [findConfig_eq_some_iff h, heq]

/-- With a repository around a directory, it matters only which of the directories
from there up to the repository have a configuration. -/
theorem IsRepository.governs_iff {g : Place} (h : t.IsRepository start g) :
    t.Governs start dir ↔ g <+: dir ∧ dir <+: start ∧ t.Has dir configFileName := by
  rw [Governs, h.reaches_iff, and_assoc]

/-- Trees in which the directories up to the repository have the same configurations
and repositories have the same repository. -/
theorem IsRepository.of_has_iff {g : Place} (h : t.IsRepository start g) {other : FileTree}
    (heq : ∀ e, g <+: e → e <+: start → (other.Has e ".git" ↔ t.Has e ".git")) :
    other.IsRepository start g := by
  obtain ⟨⟨hg, hnot⟩, hhas⟩ := h
  refine ⟨⟨hg, fun e hle he hne => ?_⟩, (heq g List.prefix_rfl hg).2 hhas⟩
  rw [heq e hle he]
  exact hnot e hle he hne

theorem IsRepository.findConfig_congr {g : Place} (h : t.IsRepository start g)
    (hstart : ∀ name ∈ start, IsFileName name) {other : FileTree}
    (heq : ∀ e, g <+: e → e <+: start → ∀ name ∈ [configFileName, ".git"],
      (other.Has e name ↔ t.Has e name)) :
    findConfig other start.toPath = findConfig t start.toPath := by
  have hother : other.IsRepository start g := h.of_has_iff fun e hle he => heq e hle he _ (by simp)
  refine FileTree.findConfig_congr hstart fun dir => ?_
  rw [hother.governs_iff, h.governs_iff]
  refine and_congr_right fun hle => and_congr_right fun hdir => ?_
  exact heq dir hle hdir _ (by simp)

/-! ## links -/

theorem isDir_of_node?_toPath {place : Place} {node : Node}
    (h : t.node? place.toPath = some node) : t.root.isDir = true := by
  have htext : ¬ place.toPath.text.isEmpty = true := by
    rw [String.isEmpty_iff, ← String.toList_eq_nil_iff, Place.toList_toPath]
    exact List.cons_ne_nil _ _
  rw [node?, resolve, if_neg htext, Place.isAbsolute_toPath, Place.toList_toPath, fields_cons_self,
    List.map_cons] at h
  cases hroot : t.root with
  | dir entries => rfl
  | file bytes =>
    rw [hroot, Node.walk] at h
    cases h
  | link target =>
    rw [hroot, Node.walk] at h
    cases h

/-- Where no link stands on the way down from a directory, its path leads on to what is
below it. -/
theorem node?_toPath_append {place below : Place} {node : Node}
    (h : ∀ name ∈ place ++ below, IsFileName name) (hnode : t.node? place.toPath = some node)
    (hlinks : ∀ way, way <+: below → ∀ target, node.at? way ≠ some (.link target)) :
    t.node? (Place.toPath (place ++ below)) = node.at? below := by
  have hnames := List.forall_mem_append.1 h
  have hroot := isDir_of_node?_toPath hnode
  by_cases hnil : below = []
  · rw [hnil, List.append_nil, hnode]
    rfl
  cases hresolve : t.resolve true place.toPath with
  | error fault =>
    rw [node?, hresolve] at hnode
    cases hnode
  | ok found =>
    obtain ⟨found, node'⟩ := found
    rw [node?, hresolve] at hnode
    obtain rfl : node' = node := Option.some.inj hnode
    have hat : ∀ way, t.root.at? (found ++ way) = node'.at? way := by
      intro way
      rw [Node.at?_append, t.at?_of_resolve hresolve]
      rfl
    obtain ⟨left, happend⟩ := t.root.exists_walk_append maxLinks [] place
    have hwalk := toOption_walk true left found hnames.2 fun way hway target => by
      rw [hat]
      exact hlinks way hway target
    rw [resolve_toPath hroot true hnames.1] at hresolve
    rw [hat] at hwalk
    rw [node?, resolve_toPath hroot true h, happend below hnil, hresolve, Except.bind, hwalk,
      Option.map_map]
    exact Option.map_id'

theorem has_iff_isSome_node? {name : String} (h : ∀ other ∈ dir ++ [name], IsFileName other) :
    t.Has dir name ↔ (t.node? (Place.toPath (dir ++ [name]))).isSome = true := by
  rw [List.forall_mem_append, List.forall_mem_singleton] at h
  rw [Has, Place.join_toPath h.1 h.2]
  rfl

theorem has_iff_walk {name : String} (hroot : t.root.isDir = true)
    (h : ∀ other ∈ dir ++ [name], IsFileName other) : t.Has dir name ↔
      (t.root.walk true maxLinks [] (dir ++ [name])).toOption.isSome = true := by
  rw [has_iff_isSome_node? h, node?, resolve_toPath hroot true h, Option.isSome_map]

/-- Without links, a directory has what its node has, wherever that is in the tree. -/
theorem has_iff_of_isPlainAlong {g below way : Place} {node : Node}
    (hnames : ∀ name ∈ g ++ below, IsFileName name) (hnode : t.node? g.toPath = some node)
    (hplain : node.IsPlainAlong below) (hway : way <+: below) {name : String}
    (hname : name ∈ [configFileName, ".git"]) :
    t.Has (g ++ way) name ↔ (node.at? (way ++ [name])).isSome = true := by
  have hfile : IsFileName name := by
    revert name
    decide
  have hall : ∀ other ∈ g ++ (way ++ [name]), IsFileName other := by
    rw [← List.append_assoc]
    refine forall_isFileName_concat (fun other hother => hnames other ?_) hfile
    exact ((List.prefix_append_right_inj g).2 hway).subset hother
  have hlinks : ∀ front, front <+: way ++ [name] → ∀ target,
      node.at? front ≠ some (.link target) := by
    intro front hfront target
    rcases List.prefix_concat_iff.1 hfront with rfl | hfront
    · exact (hplain way hway target).2 name hname
    · exact (hplain front (hfront.trans hway) target).1
  rw [has_iff_isSome_node? (List.append_assoc g way _ ▸ hall), List.append_assoc,
    node?_toPath_append hall hnode hlinks]

/-- Without links from the repository of a directory on, it does not matter what stands
outside of the repository. -/
theorem IsRepository.findConfig_eq {g below : Place} {node : Node}
    (h : t.IsRepository (g ++ below) g) (hnames : ∀ name ∈ g ++ below, IsFileName name)
    (hnode : t.node? g.toPath = some node) (hplain : node.IsPlainAlong below) {other : FileTree}
    (hother : other.node? g.toPath = some node) :
    findConfig other (Place.toPath (g ++ below)) = findConfig t (Place.toPath (g ++ below)) := by
  refine h.findConfig_congr hnames fun e hle he name hname => ?_
  obtain ⟨way, rfl⟩ := hle
  have hway := (List.prefix_append_right_inj g).1 he
  rw [has_iff_of_isPlainAlong hnames hother hplain hway hname,
    has_iff_of_isPlainAlong hnames hnode hplain hway hname]

end FileTree

/-- The search looks at a directory and at those around it, the root being the last.  It
finds the configuration of the nearest directory that has one with no repository in a
nearer directory, and nothing if there is none.  With a repository around the directory,
what is found depends on nothing but which of the directories from there up to the
nearest repository, which is one of them, have a configuration or a repository; and if no
links stand there, then on nothing outside of the repository. -/
theorem findConfig_nearest (t : FileTree) {start : Place} (h : ∀ name ∈ start, IsFileName name) :
    start.toPath.ancestors = start.inits.reverse.map Place.toPath ∧
    (∀ p, findConfig t start.toPath = some p ↔ ∃ dir, t.Governs start dir ∧
      (∀ e, t.Governs start e → e <+: dir) ∧ p = dir.toPath.join configFileName) ∧
    (findConfig t start.toPath = none ↔ ∀ dir, ¬ t.Governs start dir) ∧
    (∀ g, t.IsRepository start g →
      (∀ dir, t.Governs start dir ↔ g <+: dir ∧ dir <+: start ∧ t.Has dir configFileName) ∧
      (∀ other : FileTree,
        (∀ e, g <+: e → e <+: start → ∀ name ∈ [configFileName, ".git"],
          (other.Has e name ↔ t.Has e name)) →
        findConfig other start.toPath = findConfig t start.toPath) ∧
      (∀ below node, start = g ++ below → t.node? g.toPath = some node → node.IsPlainAlong below →
        ∀ other : FileTree, other.node? g.toPath = some node →
          findConfig other start.toPath = findConfig t start.toPath)) := by
  refine ⟨Place.ancestors_toPath h, fun p => FileTree.findConfig_eq_some_iff h,
    FileTree.findConfig_eq_none_iff h, fun g hg => ⟨fun dir => hg.governs_iff, ?_, ?_⟩⟩
  · exact fun other heq => hg.findConfig_congr h heq
  · rintro below node rfl hnode hplain other hother
    exact hg.findConfig_eq h hnode hplain hother

/-- A directory with a repository in it, and what stands beside it. -/
def aroundRepository (repository : Node) (outer : List (String × Node)) : FileTree :=
  ⟨.dir [("srv", .dir (("repo", repository) :: outer))], []⟩

/-- A repository with a configuration of its own. -/
def configuredRepository : Node :=
  .dir [(".git", .dir []), (configFileName, .file ⟨#[]⟩), ("App", .dir [])]

theorem findConfig_nearest_configuredRepository :
    (∀ name ∈ ["srv", "repo", "App"], IsFileName name) ∧
      (aroundRepository configuredRepository []).IsRepository ["srv", "repo", "App"]
        ["srv", "repo"] ∧
      configuredRepository.IsPlainAlong ["App"] ∧
      findConfig (aroundRepository configuredRepository [(configFileName, .file ⟨#[]⟩)])
          (Place.toPath ["srv", "repo", "App"]) =
        findConfig (aroundRepository configuredRepository [])
          (Place.toPath ["srv", "repo", "App"]) ∧
      findConfig (aroundRepository configuredRepository []) (Place.toPath ["srv", "repo", "App"]) =
        some ((Place.toPath ["srv", "repo"]).join configFileName) := by
  have hnames : ∀ name ∈ ["srv", "repo", "App"], IsFileName name := by decide
  have hnode : ∀ outer, (Node.dir outer).All Node.IsNoLink →
      (aroundRepository configuredRepository outer).node? (Place.toPath ["srv", "repo"]) =
        some configuredRepository := by
    intro outer houter
    refine FileTree.node?_toPath ?_ rfl (by decide)
    refine ⟨trivial, ⟨trivial, ?_, houter.2⟩, trivial⟩
    decide
  have hplain : configuredRepository.IsPlainAlong ["App"] := by
    intro way hway target
    obtain rfl | rfl : way = [] ∨ way = ["App"] := by simpa [List.prefix_cons_iff] using hway
    all_goals simp [configuredRepository, configFileName, Node.at?, Node.child?, List.lookup_cons]
  have hhas : ∀ way, way <+: ["App"] → ∀ name ∈ [configFileName, ".git"],
      ((aroundRepository configuredRepository []).Has (["srv", "repo"] ++ way) name ↔
        (configuredRepository.at? (way ++ [name])).isSome = true) := fun way hway name hname =>
    FileTree.has_iff_of_isPlainAlong hnames (hnode [] (by decide)) hplain hway hname
  have hgit : (aroundRepository configuredRepository []).Has ["srv", "repo"] ".git" :=
    (hhas [] List.nil_prefix _ (by simp)).2 rfl
  have hconfig : (aroundRepository configuredRepository []).Has ["srv", "repo"] configFileName :=
    (hhas [] List.nil_prefix _ (by simp)).2 rfl
  have hinner : ∀ name ∈ [configFileName, ".git"],
      ¬ (aroundRepository configuredRepository []).Has ["srv", "repo", "App"] name := by
    intro name hname h
    have hsome := (hhas _ List.prefix_rfl name hname).1 h
    simp [configuredRepository, configFileName, Node.at?, Node.child?, List.lookup_cons] at hsome
  have hrepository := FileTree.isRepository_concat hgit (hinner _ (by simp))
  obtain ⟨-, hfound, -, hrest⟩ :=
    findConfig_nearest (aroundRepository configuredRepository []) hnames
  refine ⟨hnames, hrepository, hplain, ?_, ?_⟩
  · exact (hrest _ hrepository).2.2 _ _ rfl (hnode [] (by decide)) hplain _ (hnode _ (by decide))
  · refine (hfound _).2 ⟨_, ⟨hrepository.1, hconfig⟩, fun e he => ?_, rfl⟩
    have hreaches : (aroundRepository configuredRepository []).Reaches
        (["srv", "repo"] ++ ["App"]) e := he.1
    rcases FileTree.reaches_concat.1 hreaches with rfl | ⟨-, hreaches⟩
    · exact absurd he.2 (hinner _ (by simp))
    · exact hreaches.isPrefix

/-- A repository with a configuration that is a link to a file outside. -/
def linkedRepository : Node :=
  .dir [(".git", .dir []), ("App", .dir [(configFileName, .link "../../shared.json")])]

theorem has_linkedRepository (outer : List (String × Node)) :
    (aroundRepository linkedRepository outer).Has ["srv", "repo"] ".git" ∧
      ¬ (aroundRepository linkedRepository outer).Has ["srv", "repo"] configFileName ∧
      ¬ (aroundRepository linkedRepository outer).Has ["srv", "repo", "App"] ".git" ∧
      ((aroundRepository linkedRepository outer).Has ["srv", "repo", "App"] configFileName ↔
        ((aroundRepository linkedRepository outer).root.walk true 39 ["srv"]
          ["shared.json"]).toOption.isSome = true) := by
  rw [FileTree.has_iff_walk rfl (by decide), FileTree.has_iff_walk rfl (by decide),
    FileTree.has_iff_walk rfl (by decide), FileTree.has_iff_walk rfl (by decide)]
  simp [Node.walk, Node.at?, Node.child?, List.lookup_cons, Except.toOption, aroundRepository,
    linkedRepository, configFileName, maxLinks, fields]

/-- A file is put beside the repository, above the directory that holds it, and the
configuration, an entry in both trees, is found only then. -/
theorem findConfig_linkedRepository :
    (∀ outer ∈ [[], [("shared.json", Node.file ⟨#[]⟩)]],
      (aroundRepository linkedRepository outer).IsRepository ["srv", "repo", "App"]
          ["srv", "repo"] ∧
        (aroundRepository linkedRepository outer).root.at? ["srv", "repo"] =
          some linkedRepository) ∧
      (linkedRepository.at? ["App", configFileName]).isSome = true ∧
      findConfig (aroundRepository linkedRepository []) (Place.toPath ["srv", "repo", "App"]) =
        none ∧
      findConfig (aroundRepository linkedRepository [("shared.json", .file ⟨#[]⟩)])
          (Place.toPath ["srv", "repo", "App"]) =
        some ((Place.toPath ["srv", "repo", "App"]).join configFileName) := by
  have hinner : ∀ name ∈ ["srv", "repo"] ++ ["App"], IsFileName name := by decide
  have houter : ∀ name ∈ ["srv"] ++ ["repo"], IsFileName name := by decide
  refine ⟨fun outer _ => ?_, rfl, ?_, ?_⟩
  · obtain ⟨hgit, -, hnone, -⟩ := has_linkedRepository outer
    exact ⟨FileTree.isRepository_concat hgit hnone, rfl⟩
  · obtain ⟨hgit, hconfig, hnone, hlink⟩ := has_linkedRepository []
    have hmissing : ¬ (aroundRepository linkedRepository []).Has ["srv", "repo", "App"]
        configFileName := by
      rw [hlink]
      simp [Node.walk, Node.at?, Node.child?, List.lookup_cons, Except.toOption, aroundRepository]
    exact ((FileTree.findConfig_concat hinner).trans ((if_neg hmissing).trans (if_neg hnone))).trans
      ((FileTree.findConfig_concat houter).trans ((if_neg hconfig).trans (if_pos hgit)))
  · obtain ⟨-, -, -, hlink⟩ := has_linkedRepository [("shared.json", .file ⟨#[]⟩)]
    have hpresent := hlink.2 (by
      simp [Node.walk, Node.at?, Node.child?, List.lookup_cons, Except.toOption, aroundRepository])
    exact (FileTree.findConfig_concat hinner).trans (if_pos hpresent)

end ResourceAudit
