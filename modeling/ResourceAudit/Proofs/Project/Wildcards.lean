import Mathlib
import ResourceAudit.Project.Sources
import ResourceAudit.Proofs.Glob.Search

/-!
# ResourceAudit.Proofs.Project.Wildcards

Wildcards in items that include and in items that remove.  Files to include are
searched for directory by directory, while files to remove are matched by their
whole paths, in which a wildcard may stand for slashes as well.  So every file
that a spec includes is one that it removes, and without recursive wildcards
both agree on the files as deep as the spec (`mem_includedFiles_iff_isRemoved`).
Deeper files may be removed without ever being included
(`isRemoved_deepSource`).
-/

namespace ResourceAudit

open ResourceAudit.Glob

/-! ## specs with wildcards -/

/-- Being a spec that is resolved to a pattern, with the patterns of its
components. -/
structure IsPatternSpec (dir : Path) (spec : String) (patterns : List Pattern) : Prop where
  hasWildcard_spec : hasWildcard spec = true
  hasWildcard_path : hasWildcard (itemPath dir spec).text = true
  reads : componentPatterns (itemPath dir spec).text = .ok patterns
  searchable : ∀ p ∈ patterns, IsSearchable p

/-- Being patterns that the pieces of an absolute path spell. -/
structure IsSpelled (target : Path) (patterns : List Pattern) (pieces : List (List Char)) :
    Prop where
  head : target.text.toList.head? = some '/'
  slash : ∀ piece ∈ pieces, '/' ∉ piece
  spells : List.Forall₂ Spells pieces patterns
  pattern : Pattern.ofText target.text = .ok ⟨.char '/' :: joinTokens false patterns⟩

theorem exists_isSpelled {dir : Path} (hdir : dir.isAbsolute = true) {spec : String}
    {patterns : List Pattern} (h : IsPatternSpec dir spec patterns) :
    ∃ pieces, IsSpelled (itemPath dir spec) patterns pieces := by
  obtain ⟨rest, -, hinner, htext⟩ :=
    Path.exists_components_normalize (Path.isAbsolute_join hdir (withSlashes spec))
  have hpieces : ∀ piece ∈ rest.map (·.text.toList), '/' ∉ piece ∧ piece ≠ [] := by
    rw [List.forall_mem_map]
    intro c hc
    obtain ⟨hslash, hvoid, -⟩ := (hinner c hc).piece
    refine ⟨hslash, fun he => ?_⟩
    rw [he] at hvoid
    cases hvoid
  have hreads := h.reads
  rw [itemPath, htext] at hreads
  obtain ⟨hspells, hpattern⟩ := ofText_of_componentPatterns hpieces hreads
  refine ⟨_, ?_, fun piece hpiece => (hpieces piece hpiece).1, hspells, ?_⟩
  · rw [itemPath, htext, String.toList_ofList]
    rfl
  · rw [itemPath, htext]
    exact hpattern

/-- A removing item removes what the tokens of its pattern match. -/
theorem isRemoved_toPath {target : Path} {patterns : List Pattern}
    {pieces : List (List Char)} (htarget : hasWildcard target.text = true)
    (h : IsSpelled target patterns pieces) (place : Place) :
    isRemoved target (Place.toPath place) = true ↔
      Matches (joinTokens false patterns) (textOf place) := by
  have hallowed : dirsAllowed true (.char '/' :: joinTokens false patterns) = true :=
    dirsAllowed_joinTokens false patterns
  rw [isRemoved, htarget, if_pos rfl, h.pattern]
  dsimp only
  rw [Pattern.matches, beq_iff_eq, matchTokens_eq_accepted hallowed, Place.toList_toPath,
    matches_token (by simp) (by simp)]
  constructor
  · rintro ⟨c, s, hs, -, hmatches⟩
    obtain rfl : textOf place = s := (List.cons.inj hs).2
    exact hmatches
  · exact fun hmatches => ⟨'/', _, rfl, rfl, hmatches⟩

/-! ## files of a tree -/

theorem toPath_nil : Place.toPath [] = ⟨"/"⟩ := by decide

theorem ne_nil_of_isSource {place : Place} (h : (Place.toPath place).isSource = true) :
    place ≠ [] := by
  rintro rfl
  rw [toPath_nil] at h
  revert h
  decide

theorem isDir_root {root node : Node} {place : Place} (h : root.at? place = some node)
    (hne : place ≠ []) : root.isDir = true := by
  obtain ⟨name, rest, rfl⟩ := List.exists_cons_of_ne_nil hne
  cases root with
  | file bytes => cases h
  | link target => cases h
  | dir entries => rfl

section Files

variable {t : FileTree} (ht : t.WellFormed) (hlinks : t.LinkFree) {dir : Path}
  (hdir : dir.isAbsolute = true) {spec : String} {patterns : List Pattern}
  (hspec : IsPatternSpec dir spec patterns) {place : Place} {bytes : ByteArray}
  (hfile : t.root.at? place = some (.file bytes))
  (hsource : (Place.toPath place).isSource = true)

include ht hlinks hdir hspec hfile hsource

/-- A spec includes the sources that a search from the root finds. -/
theorem mem_includedFiles_iff_mem_searchIn :
    ∃ fuel, patterns.length ≤ fuel ∧
      (Place.toPath place ∈ (includedFiles t dir spec).1 ↔
        Place.toPath place ∈ searchIn t fuel patterns (foundAt t (Place.toPath []))) := by
  have hroot := isDir_root hfile (ne_nil_of_isSource hsource)
  have hplace := isFileName_of_at? ht hfile
  obtain ⟨pieces, hspelled⟩ := exists_isSpelled hdir hspec
  refine ⟨patterns.length + (t.root.height + 2) * (maxLinks + 2), Nat.le_add_right _ _, ?_⟩
  have hsearch : search t (itemPath dir spec).text = .ok (searchIn t
      (patterns.length + (t.root.height + 2) * (maxLinks + 2)) patterns
      (foundAt t (Place.toPath []))) := by
    rw [search, hspec.reads, hspelled.head, if_pos rfl, toPath_nil]
    rfl
  have hisFile : t.isFile (Place.toPath place) = true := by
    rw [FileTree.isFile, t.node?_toPath hlinks hroot hplace, hfile]
    rfl
  have hcanonical := Path.isCanonical_iff.1 (Place.isCanonical_toPath hplace)
  rw [includedFiles, hspec.hasWildcard_spec, if_pos rfl, hsearch]
  dsimp only
  simp only [List.mem_map, List.mem_filter]
  constructor
  · rintro ⟨q, ⟨hq, -⟩, hnormal⟩
    -- a path that is found is that of a place, and so already resolved
    obtain ⟨names, rfl, hthere, -⟩ := isSound ht hlinks hroot _ hspec.searchable
      (List.forall_mem_nil _) hq
    obtain ⟨node, hnode⟩ := Option.isSome_iff_exists.1 hthere
    have hnames := Place.isCanonical_toPath (isFileName_of_at? ht hnode)
    rwa [← hnormal, Path.isCanonical_iff.1 hnames]
  · intro hq
    exact ⟨_, ⟨hq, by rw [hisFile, hsource]; rfl⟩, hcanonical⟩

/-- What a spec includes is what the patterns of its components name. -/
theorem names_of_mem_includedFiles (h : Place.toPath place ∈ (includedFiles t dir spec).1) :
    Names patterns place := by
  have hroot := isDir_root hfile (ne_nil_of_isSource hsource)
  obtain ⟨fuel, -, hiff⟩ := mem_includedFiles_iff_mem_searchIn ht hlinks hdir hspec hfile hsource
  obtain ⟨names, heq, hthere, hnames⟩ := isSound ht hlinks hroot fuel hspec.searchable
    (List.forall_mem_nil _) (hiff.1 h)
  obtain ⟨node, hnode⟩ := Option.isSome_iff_exists.1 hthere
  rw [Place.toPath_inj (isFileName_of_at? ht hfile) (isFileName_of_at? ht hnode) heq]
  exact hnames

theorem mem_includedFiles_of_names (hplain : ∀ p ∈ patterns, p.isRecursive = false)
    (h : Names patterns place) : Place.toPath place ∈ (includedFiles t dir spec).1 := by
  have hne := ne_nil_of_isSource hsource
  obtain ⟨fuel, hfuel, hiff⟩ :=
    mem_includedFiles_iff_mem_searchIn ht hlinks hdir hspec hfile hsource
  have hpatterns : patterns ≠ [] := by
    rintro rfl
    cases h
    exact hne rfl
  have hthere : (t.root.at? ([] ++ place)).isSome = true := by
    rw [List.nil_append, hfile]
    rfl
  exact hiff.2 (mem_searchIn_of_names ht hlinks (isDir_root hfile hne) h hpatterns
    hspec.searchable hplain hthere hfuel)

/-- In a tree without links, a source that a spec with wildcards includes is
one that the spec removes.  Without recursive wildcards, it includes those of
them that have as many components as the spec itself. -/
theorem mem_includedFiles_iff_isRemoved :
    (Place.toPath place ∈ (includedFiles t dir spec).1 →
      isRemoved (itemPath dir spec) (Place.toPath place) = true) ∧
    ((∀ p ∈ patterns, p.isRecursive = false) →
      (Place.toPath place ∈ (includedFiles t dir spec).1 ↔
        isRemoved (itemPath dir spec) (Place.toPath place) = true ∧
          place.length = patterns.length)) := by
  obtain ⟨pieces, hspelled⟩ := exists_isSpelled hdir hspec
  have hremoved := isRemoved_toPath hspec.hasWildcard_path hspelled place
  have hincluded : Place.toPath place ∈ (includedFiles t dir spec).1 → _ :=
    names_of_mem_includedFiles ht hlinks hdir hspec hfile hsource
  refine ⟨fun h => hremoved.2 (hincluded h).matches_joinTokens.1, fun hplain => ⟨fun h => ?_, ?_⟩⟩
  · have hnames := hincluded h
    exact ⟨hremoved.2 hnames.matches_joinTokens.1, hnames.length_eq hplain⟩
  · rintro ⟨h, hlength⟩
    have hpatterns := forall_isPlain_of_spells hspelled.spells hspelled.slash hplain
    have hslash : ∀ name ∈ place, '/' ∉ name.toList := fun name hname =>
      (isFileName_of_at? ht hfile name hname).2.2.2
    exact mem_includedFiles_of_names ht hlinks hdir hspec hfile hsource hplain
      (names_of_matches hpatterns hslash hlength.symm (hremoved.1 h))

end Files

/-- A directory with a source in it and a source below. -/
def nestedTree : FileTree :=
  ⟨.dir [("App", .dir [("Sub", .dir [("Deep.cs", .file ⟨#[]⟩)]), ("Top.cs", .file ⟨#[]⟩)])], []⟩

/-- The patterns of the sources of that directory. -/
def topPatterns : List Pattern :=
  [⟨[.char 'A', .char 'p', .char 'p']⟩, ⟨[.anyText, .char '.', .char 'c', .char 's']⟩]

theorem isPatternSpec_topPatterns : IsPatternSpec ⟨"/App"⟩ "*.cs" topPatterns where
  hasWildcard_spec := by cbv
  hasWildcard_path := by cbv
  reads := by cbv
  searchable := by
    rw [topPatterns, List.forall_mem_cons, List.forall_mem_singleton]
    refine ⟨⟨fun name h => ?_, fun h => ?_⟩, ⟨fun name h => ?_, fun _ => by decide⟩⟩
    · obtain rfl : "App" = name := Option.some.inj h
      decide
    · cases h
    · cases h

theorem mem_includedFiles_topSource :
    Place.toPath ["App", "Top.cs"] ∈ (includedFiles nestedTree ⟨"/App"⟩ "*.cs").1 ∧
      isRemoved (itemPath ⟨"/App"⟩ "*.cs") (Place.toPath ["App", "Top.cs"]) = true := by
  have hremoved : isRemoved (itemPath ⟨"/App"⟩ "*.cs") (Place.toPath ["App", "Top.cs"]) = true := by
    cbv
  have hplain : ∀ p ∈ topPatterns, p.isRecursive = false := by decide
  have hfile : nestedTree.root.at? ["App", "Top.cs"] = some (.file ⟨#[]⟩) := rfl
  obtain ⟨himplies, hiff⟩ := mem_includedFiles_iff_isRemoved (by decide) (by decide) (by decide)
    isPatternSpec_topPatterns hfile (by cbv)
  have hincluded := (hiff hplain).2 ⟨hremoved, rfl⟩
  exact ⟨hincluded, himplies hincluded⟩

/-- A source below a directory that is removed together with those in the
directory, though the same spec does not include it. -/
theorem isRemoved_deepSource :
    nestedTree.root.at? ["App", "Sub", "Deep.cs"] = some (.file ⟨#[]⟩) ∧
      isRemoved (itemPath ⟨"/App"⟩ "*.cs") (Place.toPath ["App", "Sub", "Deep.cs"]) = true ∧
      Place.toPath ["App", "Sub", "Deep.cs"] ∉ (includedFiles nestedTree ⟨"/App"⟩ "*.cs").1 := by
  have hfile : nestedTree.root.at? ["App", "Sub", "Deep.cs"] = some (.file ⟨#[]⟩) := rfl
  have hplain : ∀ p ∈ topPatterns, p.isRecursive = false := by decide
  refine ⟨hfile, by cbv, fun h => ?_⟩
  have hnames := names_of_mem_includedFiles (by decide) (by decide) (by decide)
    isPatternSpec_topPatterns hfile (by cbv) h
  exact absurd (hnames.length_eq hplain) (by decide)

end ResourceAudit
