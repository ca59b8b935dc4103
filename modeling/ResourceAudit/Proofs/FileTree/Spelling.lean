import Mathlib.Data.List.Induction
import ResourceAudit.Proofs.FileTree.Files

/-!
# ResourceAudit.Proofs.FileTree.Spelling

Different spellings of one path.  Repeated slashes and inner dots make no
component, and they lead nowhere else: `Node.walk_filter` drops them from the
pieces of a path.  A slash or a dot at the end is another matter, since it asks
for a directory; so paths that are the same lead to the same place as long as
they end in a component (`FileTree.resolve_of_same`), which every path of a file
does (`FileTree.isSolid_of_resolve`), and if one of them leads to a directory, so
do all (`FileTree.resolve_dir_of_same`).
-/

namespace ResourceAudit

open ResourceAudit.Text

/-! ## pieces -/

/-- Whether a piece of a path makes a component. -/
def isSolid (piece : String) : Bool := !decide (piece = "" ∨ piece = ".")

theorem isSolid_eq_false {piece : String} : isSolid piece = false ↔ piece = "" ∨ piece = "." := by
  rw [isSolid, Bool.not_eq_false', decide_eq_true_iff]

theorem isSolid_ofList (piece : List Char) : isSolid (.ofList piece) = !isVoid piece := by
  have hofList : ∀ t : String, String.ofList piece = t ↔ piece = t.toList := by
    intro t
    rw [← String.toList_inj, String.toList_ofList]
  rw [Bool.eq_iff_iff]
  simp [isSolid, isVoid, hofList]

/-- Ending in a piece that makes a component, if there is any piece. -/
def EndsSolid (pieces : List String) : Prop :=
  ∀ last, pieces.getLast? = some last → isSolid last = true

theorem EndsSolid.of_cons {piece : String} {rest : List String} (h : EndsSolid (piece :: rest)) :
    EndsSolid rest := by
  intro last hlast
  exact h last (by rw [List.getLast?_cons, hlast, Option.getD_some])

theorem EndsSolid.cons {piece : String} {rest : List String} (h : EndsSolid rest)
    (hpiece : rest = [] → isSolid piece = true) : EndsSolid (piece :: rest) := by
  intro last hlast
  rw [List.getLast?_cons, Option.some.injEq] at hlast
  cases hrest : rest.getLast? with
  | none =>
    rw [hrest, Option.getD_none] at hlast
    exact hlast ▸ hpiece (List.getLast?_eq_none_iff.1 hrest)
  | some other =>
    rw [hrest, Option.getD_some] at hlast
    exact h last (hlast ▸ hrest)

theorem EndsSolid.of_append {front rest : List String} (h : EndsSolid (front ++ rest)) :
    EndsSolid rest := by
  intro last hlast
  exact h last (by rw [List.getLast?_append, hlast, Option.some_or])

theorem EndsSolid.append {rest : List String} (h : EndsSolid rest) (hne : rest ≠ [])
    (front : List String) : EndsSolid (front ++ rest) := by
  intro last hlast
  obtain ⟨end', hend⟩ := Option.ne_none_iff_exists'.1 (mt List.getLast?_eq_none_iff.1 hne)
  rw [List.getLast?_append, hend, Option.some_or, Option.some.injEq] at hlast
  exact h last (hlast ▸ hend)

theorem endsSolid_filter (pieces : List String) : EndsSolid (pieces.filter isSolid) :=
  fun _ hlast => (List.mem_filter.1 (List.mem_of_getLast? hlast)).2

theorem EndsSolid.filter_eq_nil {pieces : List String} (h : EndsSolid pieces) :
    pieces.filter isSolid = [] ↔ pieces = [] := by
  refine ⟨fun hnil => ?_, fun hnil => by rw [hnil, List.filter_nil]⟩
  rw [← List.getLast?_eq_none_iff]
  cases hlast : pieces.getLast? with
  | none => rfl
  | some last =>
    exact absurd (h last hlast) (List.filter_eq_nil_iff.1 hnil last (List.mem_of_getLast? hlast))

/-! ## walks -/

section Walk

variable (root : Node) (followLast : Bool)

/-- A piece that makes no component asks for a directory, which what follows asks
for as well. -/
theorem Node.walk_void (links : Nat) (place : Place) {piece : String} {rest : List String}
    (hpiece : isSolid piece = false) (hrest : rest ≠ []) :
    root.walk followLast links place (piece :: rest) = root.walk followLast links place rest := by
  obtain ⟨next, others, rfl⟩ := List.exists_cons_of_ne_nil hrest
  rw [Node.walk]
  cases hat : root.at? place with
  | none => rw [Node.walk, hat]
  | some node =>
    cases node with
    | file bytes => rw [Node.walk, hat]
    | link target => rw [Node.walk, hat]
    | dir entries => exact if_pos (isSolid_eq_false.1 hpiece)

/-- What is put in front of pieces makes no difference to dropping some of them. -/
theorem Node.walk_append_filter {links : Nat} {place : Place}
    (ih : ∀ {pieces : List String}, EndsSolid pieces →
      root.walk followLast links place (pieces.filter isSolid) =
        root.walk followLast links place pieces)
    {rest : List String} (h : EndsSolid rest) (inner : List String) :
    root.walk followLast links place (inner ++ rest.filter isSolid) =
      root.walk followLast links place (inner ++ rest) := by
  by_cases hnil : rest = []
  · rw [hnil, List.filter_nil]
  · have hends := h.append hnil inner
    have hfiltered := (endsSolid_filter rest).append (mt h.filter_eq_nil.1 hnil) inner
    rw [← ih hends, ← ih hfiltered]
    simp only [List.filter_append, List.filter_filter, Bool.and_self]

/-- Pieces that make no component lead nowhere else. -/
theorem Node.walk_filter (links : Nat) (place : Place) {pieces : List String}
    (h : EndsSolid pieces) :
    root.walk followLast links place (pieces.filter isSolid) =
      root.walk followLast links place pieces := by
  -- a link that is followed puts pieces in front of those that are left, so the
  -- induction is on the links first
  induction links using Nat.strongRecOn generalizing place pieces with
  | ind links ihLinks =>
  induction pieces generalizing place with
  | nil => rfl
  | cons piece rest ih =>
    cases hpiece : isSolid piece with
    | false =>
      have hrest : rest ≠ [] := by
        rintro rfl
        rw [h piece rfl] at hpiece
        cases hpiece
      rw [List.filter_cons_of_neg (by simp [hpiece]), ih place h.of_cons,
        root.walk_void followLast links place hpiece hrest]
    | true =>
      have hnot : ¬ (piece = "" ∨ piece = ".") := by
        rw [← isSolid_eq_false, hpiece]
        exact Bool.noConfusion
      have hisEmpty : (rest.filter isSolid).isEmpty = rest.isEmpty := by
        rw [Bool.eq_iff_iff, List.isEmpty_iff, List.isEmpty_iff, h.of_cons.filter_eq_nil]
      rw [List.filter_cons_of_pos hpiece, Node.walk, Node.walk.eq_def _ _ _ _ (piece :: rest)]
      cases root.at? place with
      | none => rfl
      | some node =>
        cases node with
        | file bytes => rfl
        | link target => rfl
        | dir entries =>
          dsimp only
          rw [if_neg hnot, if_neg hnot]
          by_cases hup : piece = ".."
          · rw [if_pos hup, if_pos hup, ih _ h.of_cons]
          · rw [if_neg hup, if_neg hup]
            cases entries.lookup piece with
            | none => rfl
            | some child =>
              cases child with
              | file bytes => exact ih _ h.of_cons
              | dir inner => exact ih _ h.of_cons
              | link target =>
                dsimp only
                rw [hisEmpty]
                cases links with
                | zero => rfl
                | succ links =>
                  dsimp only
                  rw [root.walk_append_filter followLast (ihLinks links (Nat.lt_succ_self _) _)
                    h.of_cons]

/-- Only a directory is what pieces lead to of which the last makes no
component. -/
theorem Node.endsSolid_of_walk {links : Nat} {place found : Place} {pieces : List String}
    {node : Node} (h : root.walk followLast links place pieces = .ok (found, node))
    (hdir : node.isDir = false) : EndsSolid pieces := by
  have hsolid : ∀ {piece : String}, ¬ (piece = "" ∨ piece = ".") → isSolid piece = true := by
    intro piece hpiece
    rwa [← isSolid_eq_false, Bool.not_eq_false] at hpiece
  have hnil : EndsSolid [] := fun _ hlast => by cases hlast
  fun_induction Node.walk root followLast links place pieces with
  | case1 => exact hnil
  | case3 links place piece rest entries hat hpiece ih =>
    refine (ih h).cons fun hrest => ?_
    -- nothing follows, and the piece asks for a directory
    rw [hrest, Node.walk, hat] at h
    cases h
    cases hdir
  | case4 links place rest entries hat hpiece ih => exact (ih h).cons fun _ => hsolid hpiece
  | case6 links place piece rest entries hat hpiece _ target hlookup hlast =>
    rw [Bool.and_eq_true, List.isEmpty_iff] at hlast
    rw [hlast.1]
    exact hnil.cons fun _ => hsolid hpiece
  | case9 place piece rest entries hat hpiece _ target hlookup _ links start inner _ ih =>
    exact (ih h).of_append.cons fun _ => hsolid hpiece
  | case10 links place piece rest entries hat hpiece _ child _ hlookup ih =>
    exact (ih h).cons fun _ => hsolid hpiece
  | case2 | case5 | case7 | case8 | case11 | case12 => cases h

/-- What follows pieces leads on from the place they lead to. -/
theorem Node.exists_walk_append (links : Nat) (place : Place) (pieces : List String) :
    ∃ left, ∀ rest, rest ≠ [] → root.walk true links place (pieces ++ rest) =
      (root.walk true links place pieces).bind fun found => root.walk true left found.1 rest := by
  induction links using Nat.strongRecOn generalizing place pieces with
  | ind links ihLinks =>
  induction pieces generalizing place with
  | nil =>
    refine ⟨links, fun rest hrest => ?_⟩
    obtain ⟨piece, others, rfl⟩ := List.exists_cons_of_ne_nil hrest
    rw [List.nil_append, Node.walk.eq_def root _ _ _ []]
    cases hat : root.at? place with
    | none => rw [Node.walk, hat]; rfl
    | some node => rfl
  | cons piece pieces ih =>
    simp only [List.cons_append, Node.walk]
    cases root.at? place with
    | none => exact ⟨0, fun _ _ => rfl⟩
    | some node =>
    cases node with
    | file bytes => exact ⟨0, fun _ _ => rfl⟩
    | link target => exact ⟨0, fun _ _ => rfl⟩
    | dir entries =>
      dsimp only
      by_cases hvoid : piece = "" ∨ piece = "."
      · simp only [if_pos hvoid]
        exact ih place
      simp only [if_neg hvoid]
      by_cases hup : piece = ".."
      · simp only [if_pos hup]
        exact ih place.dropLast
      simp only [if_neg hup]
      cases entries.lookup piece with
      | none => exact ⟨0, fun _ _ => rfl⟩
      | some child =>
      cases child with
      | file bytes => exact ih _
      | dir inner => exact ih _
      | link target =>
        simp only [Bool.not_true, Bool.and_false, Bool.false_eq_true, if_false]
        cases links with
        | zero => exact ⟨0, fun _ _ => rfl⟩
        | succ links =>
          dsimp only
          by_cases htarget : target.isEmpty = true
          · simp only [if_pos htarget]
            exact ⟨0, fun _ _ => rfl⟩
          · simp only [if_neg htarget, ← List.append_assoc]
            exact ihLinks links (Nat.lt_succ_self links) _ _

section Directory

variable {links : Nat} {place found : Place} {pieces : List String} {entries : List (String × Node)}

/-- A piece that makes no component stays in a directory. -/
theorem Node.walk_concat_void {piece : String} (hpiece : isSolid piece = false) :
    root.walk true links place (pieces ++ [piece]) = .ok (found, .dir entries) ↔
      root.walk true links place pieces = .ok (found, .dir entries) := by
  obtain ⟨left, happend⟩ := root.exists_walk_append links place pieces
  rw [happend [piece] (List.cons_ne_nil _ _)]
  cases hwalk : root.walk true links place pieces with
  | error fault => simp [Except.bind]
  | ok last =>
    obtain ⟨last, node⟩ := last
    have hat := Node.at?_of_walk hwalk
    simp only [Except.bind]
    rw [Node.walk, hat]
    cases node with
    | file bytes => simp
    | link target => simp
    | dir others =>
      dsimp only
      rw [if_pos (isSolid_eq_false.1 hpiece), Node.walk, hat]

/-- Pieces that make no component lead to no other directory, even at the end. -/
theorem Node.walk_filter_dir :
    root.walk true links place (pieces.filter isSolid) = .ok (found, .dir entries) ↔
      root.walk true links place pieces = .ok (found, .dir entries) := by
  induction pieces using List.reverseRecOn with
  | nil => rfl
  | append_singleton pieces piece ih =>
    cases hpiece : isSolid piece with
    | false =>
      have hfilter : (pieces ++ [piece]).filter isSolid = pieces.filter isSolid := by
        simp [hpiece]
      rw [hfilter, ih, root.walk_concat_void hpiece]
    | true =>
      have hends : EndsSolid (pieces ++ [piece]) := by
        intro last hlast
        rw [List.getLast?_concat, Option.some.injEq] at hlast
        exact hlast ▸ hpiece
      rw [root.walk_filter true links place hends]

/-- Pieces in front of another one have to lead to a directory. -/
theorem Node.exists_dir_of_walk_concat {piece : String} {x : Place × Node}
    (h : root.walk true links place (pieces ++ [piece]) = .ok x) :
    ∃ found entries, root.walk true links place pieces = .ok (found, .dir entries) := by
  obtain ⟨left, happend⟩ := root.exists_walk_append links place pieces
  rw [happend [piece] (List.cons_ne_nil _ _)] at h
  cases hwalk : root.walk true links place pieces with
  | error fault =>
    rw [hwalk] at h
    cases h
  | ok last =>
    obtain ⟨last, node⟩ := last
    rw [hwalk, Except.bind, Node.walk, Node.at?_of_walk hwalk] at h
    cases node with
    | file bytes => cases h
    | link target => cases h
    | dir entries => exact ⟨last, entries, rfl⟩

end Directory

end Walk

/-! ## paths -/

namespace Path

/-- The pieces of a path, with those that make no component. -/
def fieldsOf (p : Path) : List String := (fields (· == '/') p.text.toList).map String.ofList

/-- Ending in a component, without a slash or a dot behind it. -/
def IsSolid (p : Path) : Prop := EndsSolid p.fieldsOf

theorem root_not_mem_map (pieces : List (List Char)) : Component.root ∉ pieces.map componentOf := by
  simp only [List.mem_map, componentOf]
  grind

theorem here_not_mem_map (pieces : List (List Char)) : Component.here ∉ pieces.map componentOf := by
  simp only [List.mem_map, componentOf]
  grind

theorem componentOf_inj {a b : List Char} (h : componentOf a = componentOf b) : a = b := by
  rw [componentOf, componentOf] at h
  split at h <;> split at h
  · simp_all
  · cases h
  · cases h
  · rwa [Component.name.injEq, String.ofList_inj] at h

/-- Components tell the anchor and the pieces that they are made of. -/
theorem anchored_inj {a b : Anchor} {body other : List (List Char)}
    (h : a.components ++ body.map componentOf = b.components ++ other.map componentOf) :
    a = b ∧ body = other := by
  have hbody : ∀ {body other : List (List Char)},
      body.map componentOf = other.map componentOf → body = other :=
    fun h => (List.map_inj_right fun _ _ => componentOf_inj).1 h
  cases a <;> cases b <;> simp only [Anchor.components, List.nil_append, List.cons_append,
    List.cons.injEq, reduceCtorEq, true_and, false_and] at h ⊢
  case none.none | root.root | here.here => exact hbody h
  case none.root => exact root_not_mem_map body (h ▸ List.mem_cons_self)
  case none.here => exact here_not_mem_map body (h ▸ List.mem_cons_self)
  case root.none => exact root_not_mem_map other (h ▸ List.mem_cons_self)
  case here.none => exact here_not_mem_map other (h ▸ List.mem_cons_self)

/-- Paths that are the same have the same anchor and the same pieces that make
components. -/
theorem pieces_of_same {p q : Path} (h : p.same q = true) :
    p.pieces.anchor = q.pieces.anchor ∧
      p.pieces.body.filter (!isVoid ·) = q.pieces.body.filter (!isVoid ·) := by
  have hcomponents := eq_of_beq h
  rw [components, components, Pieces.components, Pieces.components] at hcomponents
  exact anchored_inj hcomponents

/-- The pieces that make components, as texts. -/
theorem filter_fieldsOf (p : Path) :
    p.fieldsOf.filter isSolid = (p.pieces.body.filter (!isVoid ·)).map String.ofList := by
  rw [← p.filter_fields, fieldsOf, List.filter_map]
  congr 2
  exact funext isSolid_ofList

theorem filter_fieldsOf_of_same {p q : Path} (h : p.same q = true) :
    p.isAbsolute = q.isAbsolute ∧ p.fieldsOf.filter isSolid = q.fieldsOf.filter isSolid := by
  obtain ⟨hanchor, hbody⟩ := pieces_of_same h
  rw [isAbsolute, isAbsolute, hanchor, filter_fieldsOf, filter_fieldsOf, hbody]
  exact ⟨rfl, rfl⟩

/-- A name below a path is one more piece that makes a component. -/
theorem filter_fieldsOf_join (p : Path) {name : String} (hname : IsFileName name) :
    (p.join name).isAbsolute = p.isAbsolute ∧
      (p.join name).fieldsOf.filter isSolid = p.fieldsOf.filter isSolid ++ [name] := by
  have hcomponents := p.components_join hname
  have hinner : (Component.name name).IsInner := hname
  have hlast : Component.name name = componentOf name.toList := hinner.piece.2.2.symm
  rw [components, components, Pieces.components, Pieces.components, hlast, List.append_assoc,
    ← List.map_singleton, ← List.map_append] at hcomponents
  obtain ⟨hanchor, hbody⟩ := anchored_inj hcomponents
  rw [isAbsolute, isAbsolute, hanchor, filter_fieldsOf, filter_fieldsOf, hbody, List.map_append,
    List.map_singleton, String.ofList_toList]
  exact ⟨rfl, rfl⟩

/-- Only the empty path has no components. -/
theorem components_eq_nil {p : Path} : p.components = [] ↔ p.text = "" := by
  constructor
  · intro h
    rw [components_eq, List.append_eq_nil_iff] at h
    obtain ⟨hanchor, hnone⟩ := h
    have hvoid : ∀ piece ∈ fields (· == '/') p.text.toList, piece = [] ∨ piece = ['.'] := by
      simpa [componentsOf, isVoid, or_iff_not_imp_left] using hnone
    rw [pieces] at hanchor
    split at hanchor
    · cases hanchor
    · cases hanchor
    · cases hanchor
    · next hroot hdot hhere =>
      by_cases hslash : '/' ∈ p.text.toList
      · obtain ⟨front, rest, hs, hfront⟩ := List.eq_append_cons_of_mem hslash
        rw [hs, fields_append hfront, List.forall_mem_cons] at hvoid
        obtain ⟨rfl | rfl, -⟩ := hvoid
        · exact absurd hs (hroot rest)
        · exact absurd hs (hhere rest)
      · rw [fields_of_not_mem hslash, List.forall_mem_singleton] at hvoid
        exact String.toList_eq_nil_iff.1 (hvoid.resolve_right hdot)
  · intro h
    obtain rfl : p = ⟨""⟩ := congrArg Path.mk h
    decide

end Path

/-! ## files -/

/-- Spellings of a path that end in a component lead to the same place. -/
theorem FileTree.resolve_of_same (t : FileTree) (followLast : Bool) {p q : Path}
    (hp : p.IsSolid) (hq : q.IsSolid) (h : p.same q = true) :
    t.resolve followLast p = t.resolve followLast q := by
  obtain ⟨habsolute, hfields⟩ := Path.filter_fieldsOf_of_same h
  have hempty : ∀ {p : Path}, p.IsSolid → p.text.isEmpty = false := by
    intro p hp
    rw [← Bool.not_eq_true, String.isEmpty_iff]
    intro htext
    have hvoid := hp "" (by rw [Path.fieldsOf, htext]; rfl)
    cases hvoid
  rw [resolve, resolve, hempty hp, hempty hq, habsolute]
  calc t.root.walk followLast maxLinks (if q.isAbsolute then [] else t.here) p.fieldsOf
      _ = t.root.walk followLast maxLinks _ (p.fieldsOf.filter isSolid) :=
        (t.root.walk_filter followLast maxLinks _ hp).symm
      _ = t.root.walk followLast maxLinks _ q.fieldsOf := by
        rw [hfields, t.root.walk_filter followLast maxLinks _ hq]

theorem FileTree.read_of_same (t : FileTree) {p q : Path} (hp : p.IsSolid) (hq : q.IsSolid)
    (h : p.same q = true) : t.read p = t.read q := by
  rw [read, read, t.resolve_of_same true hp hq h]

/-- A path that leads to anything but a directory ends in a component. -/
theorem FileTree.isSolid_of_resolve {t : FileTree} {followLast : Bool} {p : Path} {place : Place}
    {node : Node} (h : t.resolve followLast p = .ok (place, node)) (hdir : node.isDir = false) :
    p.IsSolid := by
  rw [resolve] at h
  split at h
  · cases h
  · exact t.root.endsSolid_of_walk followLast h hdir

theorem FileTree.isSolid_of_isFile {t : FileTree} {p : Path} (h : t.isFile p = true) :
    p.IsSolid := by
  rw [isFile, node?] at h
  cases hresolve : t.resolve true p with
  | error fault =>
    rw [hresolve] at h
    cases h
  | ok found =>
    rw [hresolve] at h
    refine t.isSolid_of_resolve hresolve ?_
    cases hnode : found.2 <;> simp_all [Except.toOption, Node.isFile, Node.isDir]

theorem FileTree.isSolid_of_read {t : FileTree} {p : Path} {text : String}
    (h : t.read p = .ok text) : p.IsSolid := by
  rw [read] at h
  split at h
  · cases h
  · next hresolve => exact t.isSolid_of_resolve hresolve rfl
  · cases h
  · cases h

/-- A path below another one ends in the name it has there. -/
theorem Path.isSolid_join (p : Path) {name : String} (hname : IsFileName name) :
    (p.join name).IsSolid := by
  obtain ⟨hempty, hdot, -, hslash⟩ := hname
  have hsolid : isSolid name = true := by simp [isSolid, hempty, hdot]
  have hfields : (fields (· == '/') name.toList).map String.ofList = [name] := by
    rw [fields_of_not_mem hslash, List.map_singleton, String.ofList_toList]
  intro last hlast
  by_cases hp : p.text = ""
  · rw [join_empty hp, fieldsOf, hfields, List.getLast?_singleton, Option.some.injEq] at hlast
    exact hlast ▸ hsolid
  · -- what stands before the last slash does not matter
    obtain ⟨front, hjoin, -⟩ := p.exists_text_join hp fun h => hslash (List.mem_of_head? h)
    rw [hjoin, fieldsOf, String.toList_ofList, fields_append_sep, List.map_append, hfields,
      List.getLast?_concat, Option.some.injEq] at hlast
    exact hlast ▸ hsolid

theorem IsResolved.isFileName_of_mem {cs : List Component} (h : IsResolved cs) {name : String}
    (hname : .name name ∈ cs) : IsFileName name := by
  obtain ⟨front, rest, hfront, rfl, hrest, -⟩ := h
  have hfront : Component.name name ∉ front := by
    rcases hfront with rfl | rfl <;> simp
  exact hrest _ ((List.mem_append.1 hname).resolve_left hfront)

/-- A path that ends in a name does so once it is normalized. -/
theorem Path.isSolid_normalize {p : Path} {name : String} (h : p.fileName = some name) :
    p.normalize.IsSolid := by
  have hresolved := p.isResolved_foldl_components
  rw [fileName] at h
  split at h
  · next text hlast =>
    obtain ⟨front, hfront⟩ := List.getLast?_eq_some_iff.1 hlast
    have hfold : p.components.foldl resolveStep [] =
        front.foldl resolveStep [] ++ [.name text] := by
      rw [hfront, List.foldl_append]
      rfl
    rw [hfold] at hresolved
    have hname : IsFileName text := hresolved.isFileName_of_mem (by simp)
    have hdropLast := hresolved.dropLast
    rw [List.dropLast_concat] at hdropLast
    rw [normalize, hfold, ← join_ofComponents hdropLast hname]
    exact isSolid_join _ hname
  · cases h

/-- The files below a path end in their names. -/
theorem FileTree.WellFormed.isSolid_of_mem_filesBelow {t : FileTree} (ht : t.WellFormed)
    (enters : Nat → String → Bool) {p : Path} {files : List Path}
    (h : t.filesBelow enters p = .ok files) {f : Path} (hf : f ∈ files) : f.IsSolid := by
  obtain ⟨_, _, node, hnode, rfl⟩ := t.exists_resolve_of_filesBelow enters h
  obtain ⟨place, ⟨bytes, hplace⟩, rfl, -⟩ := (mem_filesOf enters (ht.resolve hnode)).1 hf
  rcases List.eq_nil_or_concat place with rfl | ⟨dirs, name, rfl⟩
  · obtain rfl := Option.some.inj hplace
    exact t.isSolid_of_resolve hnode rfl
  · rw [List.concat_eq_append] at hplace ⊢
    rw [Path.below_concat]
    exact Path.isSolid_join _ (isFileName_of_at? (ht.resolve hnode) hplace name (by simp))

/-! ## directories -/

/-- Spellings of a path lead to the same directory, however they end. -/
theorem FileTree.resolve_dir_of_same {t : FileTree} {p q : Path} (h : p.same q = true)
    {place : Place} {entries : List (String × Node)}
    (hp : t.resolve true p = .ok (place, .dir entries)) :
    t.resolve true q = .ok (place, .dir entries) := by
  obtain ⟨habsolute, hfields⟩ := Path.filter_fieldsOf_of_same h
  have htext : p.text = "" ↔ q.text = "" := by
    rw [← Path.components_eq_nil, ← Path.components_eq_nil, eq_of_beq h]
  rw [resolve] at hp ⊢
  simp only [String.isEmpty_iff, htext, habsolute] at hp ⊢
  split at hp
  · cases hp
  · next hq =>
    rw [if_neg hq]
    exact t.root.walk_filter_dir.1 (hfields ▸ t.root.walk_filter_dir.2 hp)

/-- A path below another one leads somewhere only if the other one leads to a
directory. -/
theorem FileTree.exists_dir_of_resolve_join {t : FileTree} {p : Path} (hp : p.text ≠ "")
    {name : String} (hname : IsFileName name) {x : Place × Node}
    (h : t.resolve true (p.join name) = .ok x) :
    ∃ place entries, t.resolve true p = .ok (place, .dir entries) := by
  obtain ⟨habsolute, hfields⟩ := p.filter_fieldsOf_join hname
  rw [resolve] at h ⊢
  simp only [String.isEmpty_iff, hp, if_false, habsolute] at h ⊢
  split at h
  · cases h
  · have hwalk := t.root.walk_filter true maxLinks (if p.isAbsolute then [] else t.here)
      (p.isSolid_join hname)
    rw [hfields] at hwalk
    obtain ⟨place, entries, hdir⟩ := t.root.exists_dir_of_walk_concat (hwalk.trans h)
    exact ⟨place, entries, t.root.walk_filter_dir.1 hdir⟩

end ResourceAudit
