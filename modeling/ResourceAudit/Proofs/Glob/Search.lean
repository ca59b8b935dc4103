import ResourceAudit.Proofs.FileTree.Places
import ResourceAudit.Proofs.Glob.Naming

/-!
# ResourceAudit.Proofs.Glob.Search

What a search finds in a tree without links.  Every path it finds is that of a
place which the patterns name below the directory it begins in (`isSound`), and
without recursive wildcards it finds all of them (`mem_searchIn_of_names`).
Components that begin with a dot are left aside where they have wildcards, since
these name the directory itself and the one above it as well.
-/

namespace ResourceAudit.Glob

/-! ## patterns of one name -/

theorem tokens_of_mapM {tokens : List Token} {cs : List Char}
    (h : tokens.mapM Token.char? = some cs) : tokens = cs.map .char := by
  induction tokens generalizing cs with
  | nil =>
    cases h
    rfl
  | cons token rest ih =>
    rw [List.mapM_cons] at h
    cases token with
    | char c =>
      cases hrest : rest.mapM Token.char? with
      | none =>
        rw [hrest] at h
        cases h
      | some cs =>
        rw [hrest] at h
        cases h
        rw [List.map_cons, ih hrest]
    | _ => cases h

theorem tokens_of_literal? {p : Pattern} {name : String} (h : p.literal? = some name) :
    p.tokens = name.toList.map .char := by
  rw [Pattern.literal?, Option.map_eq_some_iff] at h
  obtain ⟨cs, hcs, rfl⟩ := h
  rw [String.toList_ofList]
  exact tokens_of_mapM hcs

theorem isRecursive_of_literal? {p : Pattern} {name : String} (h : p.literal? = some name) :
    p.isRecursive = false := by
  rw [Pattern.isRecursive, tokens_of_literal? h]
  simp

theorem matches_map_char {cs s : List Char} : Matches (cs.map .char) s ↔ s = cs := by
  induction cs generalizing s with
  | nil => exact Iff.rfl
  | cons c cs ih =>
    rw [List.map_cons, matches_token (by simp) (by simp)]
    constructor
    · rintro ⟨d, u, rfl, hd, hu⟩
      rw [ih.1 hu, ← (eq_of_beq hd : c = d)]
    · rintro rfl
      exact ⟨c, cs, rfl, beq_self_eq_true c, ih.2 rfl⟩

/-- A pattern without wildcards matches the name it is. -/
theorem matches_of_literal? {p : Pattern} {name other : String} (h : p.literal? = some name) :
    p.matches other = true ↔ other = name := by
  have hdirs := not_mem_of_isRecursive (isRecursive_of_literal? h)
  rw [Pattern.matches, beq_iff_eq, matchTokens_eq_accepted (dirsAllowed_of_not_mem hdirs true),
    tokens_of_literal? h, matches_map_char, String.toList_inj]

/-- Being the pattern of a component that names entries of directories only: the
name of a file, or wildcards not behind a dot. -/
structure IsSearchable (p : Pattern) : Prop where
  literal : ∀ name, p.literal? = some name → IsFileName name
  undotted : p.literal? = none → p.tokens.head? ≠ some (.char '.')

/-! ## one step of a search -/

section Search

variable {t : FileTree}

/-- The entries of the directory at a place; none if there is no directory. -/
def entriesAt (t : FileTree) (place : Place) : List (String × Node) :=
  match t.root.at? place with
  | some (.dir entries) => entries
  | _ => []

/-- What is found from a place on by the patterns that are left. -/
def searchAt (t : FileTree) (fuel : Nat) (patterns : List Pattern) (place : Place) : List Path :=
  if patterns.isEmpty then [Place.toPath place]
  else searchIn t fuel patterns (foundAt t (Place.toPath place))

/-- What the next pattern names with a name in a directory, and the others behind it. -/
def searchName (t : FileTree) (fuel : Nat) (patterns : List Pattern) (place : Place)
    (name : String) : List Path :=
  match patterns with
  | p :: rest => if p.matches name then searchAt t fuel rest (place ++ [name]) else []
  | [] => []

/-- What a pattern with wildcards, and the others behind it, find with a name in
a directory. -/
def visit (t : FileTree) (fuel : Nat) (p : Pattern) (rest : List Pattern) (place : Place)
    (name : String) : List Path :=
  let child := foundAt t (Place.toPath (place ++ [name]))
  if p.isRecursive then
    let after := rest.dropWhile Pattern.isRecursive
    (if child.isDir then searchIn t fuel (p :: after) child else []) ++
      if after.isEmpty then (if child.isDir then [child.path] else [])
      else searchName t fuel after place name
  else searchName t fuel (p :: rest) place name

variable (ht : t.WellFormed) (hlinks : t.LinkFree) (hroot : t.root.isDir = true)

include hlinks hroot

theorem isDir_toPath {place : Place} (h : ∀ name ∈ place, IsFileName name) :
    t.isDir (Place.toPath place) = (t.root.at? place).any Node.isDir := by
  rw [FileTree.isDir, t.node?_toPath hlinks hroot h]

theorem list?_toPath {place : Place} (h : ∀ name ∈ place, IsFileName name) :
    (t.list? (Place.toPath place)).getD [] = entriesAt t place := by
  rw [FileTree.list?, t.node?_toPath hlinks hroot h, entriesAt]
  cases t.root.at? place with
  | none => rfl
  | some node => cases node <;> rfl

omit hlinks hroot in
theorem nameIn_toPath {place : Place} (h : ∀ name ∈ place, IsFileName name) {name : String}
    (hname : IsFileName name) :
    nameIn (Place.toPath place) name = Place.toPath (place ++ [name]) := by
  have hsame : (Place.toPath place).same ⟨"."⟩ = false := by
    rw [Path.same, Place.components_toPath h, beq_eq_false_iff_ne]
    exact fun he => Component.noConfusion (List.cons.inj he).1
  rw [nameIn, hsame, if_neg Bool.false_ne_true, Place.join_toPath h hname]

theorem searchIn_literal {p : Pattern} {name : String} (hp : p.literal? = some name)
    (hname : IsFileName name) (fuel : Nat) (rest : List Pattern) {place : Place}
    (h : ∀ name ∈ place, IsFileName name) :
    searchIn t (fuel + 1) (p :: rest) (foundAt t (Place.toPath place)) =
      if (t.root.at? (place ++ [name])).isSome then searchAt t fuel rest (place ++ [name])
      else [] := by
  have hplace := forall_isFileName_concat h hname
  have hdots : (name == "." || name == "..") = false := by
    simp [hname.2.1, hname.2.2.1]
  unfold searchIn
  simp only [hp, foundAt, nameIn_toPath h hname, hdots, FileTree.exists,
    t.node?_toPath hlinks hroot hplace, t.toOption_resolve_toPath hlinks hroot false hplace,
    Option.isSome_map, Bool.or_self, Bool.false_eq_true, if_false]
  rfl

omit hlinks hroot in
include ht in
theorem at?_of_mem_entriesAt {place : Place} {entry : String × Node}
    (h : entry ∈ entriesAt t place) :
    t.root.at? (place ++ [entry.1]) = some entry.2 ∧ IsFileName entry.1 := by
  rw [entriesAt] at h
  split at h
  · next entries hdir =>
    obtain ⟨hnames, hnodup⟩ := (ht.at? hdir).self
    refine ⟨?_, hnames _ (List.mem_map_of_mem h)⟩
    rw [Node.at?_append, hdir, Option.bind_some, Node.at?, Node.child?, lookup_of_mem hnodup h]
    rfl
  · cases h

omit hlinks hroot in
theorem mem_entriesAt_of_at? {place : Place} {name : String} {node : Node}
    (h : t.root.at? (place ++ [name]) = some node) : (name, node) ∈ entriesAt t place := by
  rw [Node.at?_append, Option.bind_eq_some_iff] at h
  obtain ⟨dir, hdir, hnode⟩ := h
  rw [Node.at?, Option.bind_eq_some_iff] at hnode
  obtain ⟨child, hchild, hnode⟩ := hnode
  obtain rfl : child = node := Option.some.inj hnode
  cases dir with
  | file bytes => cases hchild
  | link target => cases hchild
  | dir entries =>
    rw [entriesAt, hdir]
    exact mem_of_lookup hchild

include ht

/-- A pattern with wildcards goes through the entries of a directory. -/
theorem searchIn_wildcards {p : Pattern} (hp : p.literal? = none)
    (hdot : p.tokens.head? ≠ some (.char '.')) (fuel : Nat) (rest : List Pattern) {place : Place}
    (h : ∀ name ∈ place, IsFileName name) :
    searchIn t (fuel + 1) (p :: rest) (foundAt t (Place.toPath place)) =
      (entriesAt t place).flatMap fun entry => visit t fuel p rest place entry.1 := by
  have hspecials : (p.tokens.head? == some (.char '.')) = false := beq_eq_false_iff_ne.2 hdot
  unfold searchIn
  simp only [hp, foundAt, isDir_toPath hlinks hroot h, list?_toPath hlinks hroot h, hspecials]
  split
  · rw [if_neg Bool.false_ne_true, List.flatMap_nil, List.append_nil]
    refine List.flatMap_congr fun entry hentry => ?_
    obtain ⟨-, hname⟩ := at?_of_mem_entriesAt ht hentry
    simp only [nameIn_toPath h hname, Place.fileName_toPath h hname]
    rw [visit]
    cases p.isRecursive with
    | false => rfl
    | true => cases rest.dropWhile Pattern.isRecursive <;> rfl
  · next hdir =>
    have hnone : entriesAt t place = [] := by
      rw [entriesAt]
      cases hplace : t.root.at? place with
      | none => rfl
      | some node =>
        cases node with
        | file bytes => rfl
        | link target => rfl
        | dir entries => exact absurd (by rw [hplace]; rfl) hdir
    rw [hnone, List.flatMap_nil]

/-! ## a whole search -/

omit ht hlinks hroot

theorem names_of_dropWhile {rest : List Pattern} {names : List String}
    (hne : rest.dropWhile Pattern.isRecursive ≠ [])
    (h : Names (rest.dropWhile Pattern.isRecursive) names) : Names rest names := by
  induction rest with
  | nil => exact absurd rfl hne
  | cons q rest ih =>
    cases hq : q.isRecursive with
    | false =>
      rw [List.dropWhile_cons_of_neg (by simp [hq])] at h
      exact h
    | true =>
      rw [List.dropWhile_cons_of_pos hq] at hne h
      refine .stop hq ?_ (ih hne h)
      rintro rfl
      exact hne rfl

theorem names_singleton {p : Pattern} {rest : List Pattern} (hp : p.isRecursive = true)
    (h : rest.dropWhile Pattern.isRecursive = []) (name : String) : Names (p :: rest) [name] := by
  induction rest generalizing p with
  | nil => exact .last hp
  | cons q rest ih =>
    cases hq : q.isRecursive with
    | false =>
      rw [List.dropWhile_cons_of_neg (by simp [hq])] at h
      cases h
    | true =>
      rw [List.dropWhile_cons_of_pos hq] at h
      exact .stop hp (List.cons_ne_nil q rest) (ih hq h)

/-- Recursive patterns one after the other name what one of them does. -/
theorem names_of_collapsed {p : Pattern} {rest : List Pattern} {names : List String}
    (hp : p.isRecursive = true) (h : Names (p :: rest.dropWhile Pattern.isRecursive) names) :
    Names (p :: rest) names := by
  generalize hpatterns : p :: rest.dropWhile Pattern.isRecursive = patterns at h
  induction h with
  | nil => cases hpatterns
  | name hplain _ _ _ =>
    cases hpatterns
    rw [hp] at hplain
    cases hplain
  | last _ =>
    obtain ⟨rfl, hnone⟩ := List.cons.inj hpatterns
    exact names_singleton hp hnone _
  | stop _ hne hrest _ =>
    obtain ⟨rfl, rfl⟩ := List.cons.inj hpatterns
    refine .stop hp ?_ (names_of_dropWhile hne hrest)
    rintro rfl
    exact hne rfl
  | enter _ _ ih =>
    cases hpatterns
    exact .enter hp (ih rfl)

/-- Being found as the path of a place that patterns name below a directory. -/
def IsNamed (t : FileTree) (patterns : List Pattern) (place : Place) (q : Path) : Prop :=
  ∃ names, q = Place.toPath (place ++ names) ∧ (t.root.at? (place ++ names)).isSome = true ∧
    Names patterns names

theorem IsNamed.cons {p : Pattern} (hp : p.isRecursive = false) {name : String}
    (hname : p.matches name = true) {rest : List Pattern} {place : Place} {q : Path}
    (h : IsNamed t rest (place ++ [name]) q) : IsNamed t (p :: rest) place q := by
  obtain ⟨names, rfl, hat, hnames⟩ := h
  rw [List.append_assoc, List.singleton_append] at hat ⊢
  exact ⟨name :: names, rfl, hat, .name hp hname hnames⟩

theorem IsNamed.enter {p : Pattern} (hp : p.isRecursive = true) {rest : List Pattern}
    {place : Place} {name : String} {q : Path}
    (h : IsNamed t (p :: rest.dropWhile Pattern.isRecursive) (place ++ [name]) q) :
    IsNamed t (p :: rest) place q := by
  obtain ⟨names, rfl, hat, hnames⟩ := h
  rw [List.append_assoc, List.singleton_append] at hat ⊢
  exact ⟨name :: names, rfl, hat, .enter hp (names_of_collapsed hp hnames)⟩

theorem IsNamed.stop {p : Pattern} (hp : p.isRecursive = true) {rest : List Pattern} {place : Place}
    {q : Path} (hne : rest.dropWhile Pattern.isRecursive ≠ [])
    (h : IsNamed t (rest.dropWhile Pattern.isRecursive) place q) :
    IsNamed t (p :: rest) place q := by
  obtain ⟨names, rfl, hat, hnames⟩ := h
  refine ⟨names, rfl, hat, .stop hp ?_ (names_of_dropWhile hne hnames)⟩
  rintro rfl
  exact hne rfl

/-- Finding nothing but what the patterns name. -/
def IsSound (t : FileTree) (fuel : Nat) : Prop :=
  ∀ {patterns : List Pattern} {place : Place} {q : Path}, (∀ p ∈ patterns, IsSearchable p) →
    (∀ name ∈ place, IsFileName name) →
      q ∈ searchIn t fuel patterns (foundAt t (Place.toPath place)) → IsNamed t patterns place q

section Step

variable {fuel : Nat} (ih : IsSound t fuel) {place : Place} {name : String}
  (hplace : ∀ other ∈ place ++ [name], IsFileName other)
  (hthere : (t.root.at? (place ++ [name])).isSome = true)

include ih hplace hthere

theorem isNamed_of_mem_searchAt {patterns : List Pattern}
    (hpatterns : ∀ p ∈ patterns, IsSearchable p) {q : Path}
    (h : q ∈ searchAt t fuel patterns (place ++ [name])) :
    IsNamed t patterns (place ++ [name]) q := by
  rw [searchAt] at h
  split at h
  · next hnone =>
    obtain rfl := List.isEmpty_iff.1 hnone
    rw [List.mem_singleton] at h
    exact ⟨[], by rw [h, List.append_nil], by rwa [List.append_nil], .nil⟩
  · exact ih hpatterns hplace h

theorem isNamed_of_mem_searchName {p : Pattern} {rest : List Pattern}
    (hpatterns : ∀ q ∈ p :: rest, IsSearchable q) (hp : p.isRecursive = false) {q : Path}
    (h : q ∈ searchName t fuel (p :: rest) place name) : IsNamed t (p :: rest) place q := by
  rw [List.forall_mem_cons] at hpatterns
  rw [searchName] at h
  split at h
  · next hname => exact (isNamed_of_mem_searchAt ih hplace hthere hpatterns.2 h).cons hp hname
  · cases h

theorem isNamed_of_mem_visit {p : Pattern} {rest : List Pattern}
    (hpatterns : ∀ q ∈ p :: rest, IsSearchable q) {q : Path}
    (h : q ∈ visit t fuel p rest place name) : IsNamed t (p :: rest) place q := by
  rw [visit] at h
  cases hp : p.isRecursive with
  | false =>
    rw [hp, if_neg Bool.false_ne_true] at h
    exact isNamed_of_mem_searchName ih hplace hthere hpatterns hp h
  | true =>
    rw [hp, if_pos rfl, List.mem_append] at h
    have hafter : ∀ q ∈ rest.dropWhile Pattern.isRecursive, IsSearchable q := fun q hq =>
      hpatterns q (List.mem_cons_of_mem _ (List.dropWhile_subset _ hq))
    rcases h with h | h
    · split at h
      · refine IsNamed.enter hp (ih ?_ hplace h)
        rw [List.forall_mem_cons]
        exact ⟨hpatterns p List.mem_cons_self, hafter⟩
      · cases h
    · split at h
      · next hnone =>
        split at h
        · rw [List.mem_singleton] at h
          exact ⟨[name], h, hthere, names_singleton hp (List.isEmpty_iff.1 hnone) name⟩
        · cases h
      · next hnone =>
        have hne : rest.dropWhile Pattern.isRecursive ≠ [] := fun he =>
          hnone (List.isEmpty_iff.2 he)
        refine IsNamed.stop hp hne ?_
        have hhead := List.head?_dropWhile_not Pattern.isRecursive rest
        obtain ⟨next, others, hnext⟩ := List.exists_cons_of_ne_nil hne
        rw [hnext] at h hafter hhead ⊢
        exact isNamed_of_mem_searchName ih hplace hthere hafter hhead h

end Step

include ht hlinks hroot

theorem isSound (fuel : Nat) : IsSound t fuel := by
  induction fuel with
  | zero =>
    intro patterns place q _ _ h
    exact absurd h List.not_mem_nil
  | succ fuel ih =>
    intro patterns place q hpatterns hplace h
    cases patterns with
    | nil => exact absurd h List.not_mem_nil
    | cons p rest =>
      have hp := hpatterns p List.mem_cons_self
      cases hliteral : p.literal? with
      | some name =>
        have hname := hp.literal name hliteral
        rw [searchIn_literal hlinks hroot hliteral hname _ _ hplace] at h
        split at h
        · next hthere =>
          refine IsNamed.cons (isRecursive_of_literal? hliteral)
            ((matches_of_literal? hliteral).2 rfl) ?_
          exact isNamed_of_mem_searchAt ih (forall_isFileName_concat hplace hname) hthere
            (fun q hq => hpatterns q (List.mem_cons_of_mem _ hq)) h
        · cases h
      | none =>
        rw [searchIn_wildcards ht hlinks hroot hliteral (hp.undotted hliteral) _ _ hplace,
          List.mem_flatMap] at h
        obtain ⟨entry, hentry, h⟩ := h
        obtain ⟨hat, hname⟩ := at?_of_mem_entriesAt ht hentry
        exact isNamed_of_mem_visit ih (forall_isFileName_concat hplace hname) (by rw [hat]; rfl)
          hpatterns h

/-- What patterns without recursive ones name is found. -/
theorem mem_searchIn_of_names {patterns : List Pattern} {names : List String}
    (hnames : Names patterns names) (hne : patterns ≠ [])
    (hpatterns : ∀ p ∈ patterns, IsSearchable p) (hplain : ∀ p ∈ patterns, p.isRecursive = false)
    {place : Place} (hthere : (t.root.at? (place ++ names)).isSome = true) {fuel : Nat}
    (hfuel : patterns.length ≤ fuel) :
    Place.toPath (place ++ names) ∈ searchIn t fuel patterns (foundAt t (Place.toPath place)) := by
  induction hnames generalizing place fuel with
  | nil => exact absurd rfl hne
  | last hp | stop hp _ _ _ | enter hp _ _ =>
    rw [hplain _ List.mem_cons_self] at hp
    cases hp
  | @name p rest name names hp hname hrest ih =>
    obtain ⟨fuel, rfl⟩ := Nat.exists_eq_add_of_le' (Nat.one_le_of_lt hfuel)
    obtain ⟨found, hfound⟩ := Option.isSome_iff_exists.1 hthere
    have hall := isFileName_of_at? ht hfound
    have hplace : ∀ other ∈ place, IsFileName other := fun other hother =>
      hall other (List.mem_append_left _ hother)
    obtain ⟨node, hnode⟩ : ∃ node, t.root.at? (place ++ [name]) = some node := by
      rw [List.append_cons place name names, Node.at?_append, Option.bind_eq_some_iff] at hfound
      obtain ⟨node, hnode, -⟩ := hfound
      exact ⟨node, hnode⟩
    have hsearch :
        Place.toPath (place ++ name :: names) ∈ searchAt t fuel rest (place ++ [name]) := by
      rw [List.append_cons place name names] at hthere ⊢
      rw [searchAt]
      split
      · next hnone =>
        obtain rfl := List.isEmpty_iff.1 hnone
        cases hrest
        rw [List.append_nil]
        exact List.mem_singleton_self _
      · next hsome =>
        rw [List.forall_mem_cons] at hpatterns hplain
        exact ih (fun he => hsome (List.isEmpty_iff.2 he)) hpatterns.2 hplain.2 hthere
          (Nat.le_of_succ_le_succ hfuel)
    cases hliteral : p.literal? with
    | some literal =>
      obtain rfl := (matches_of_literal? hliteral).1 hname
      rw [searchIn_literal hlinks hroot hliteral (hall name (by simp)) _ _ hplace, hnode]
      exact hsearch
    | none =>
      rw [searchIn_wildcards ht hlinks hroot hliteral
        ((hpatterns p List.mem_cons_self).undotted hliteral) _ _ hplace, List.mem_flatMap]
      refine ⟨(name, node), mem_entriesAt_of_at? hnode, ?_⟩
      rw [visit, hp, if_neg Bool.false_ne_true, searchName, if_pos hname]
      exact hsearch

end Search

end ResourceAudit.Glob
