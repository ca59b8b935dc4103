import ResourceAudit.Proofs.Path.Normal

/-!
# ResourceAudit.Proofs.Path.Joining

Paths below any path, however it is spelled.  What stands in front of a slash
makes the same components whatever follows (`Path.components_append_slash`), so a
name below a path is one more component of it (`Path.components_join`), and
names below each other are as many (`Path.components_below`).
-/

namespace ResourceAudit

open ResourceAudit.Text

/-! ## components of texts -/

theorem componentsOf_append (front rest : List (List Char)) :
    componentsOf (front ++ rest) = componentsOf front ++ componentsOf rest := by
  rw [componentsOf, List.filter_append, List.map_append]
  rfl

theorem componentsOf_singleton {name : String} (h : IsFileName name) :
    componentsOf [name.toList] = [.name name] := by
  have hinner : ∀ c ∈ [Component.name name], c.IsInner := List.forall_mem_singleton.2 h
  exact componentsOf_texts hinner

namespace Path

/-- The pieces that make components are those behind the anchor of a path. -/
theorem filter_fields (p : Path) :
    (fields (· == '/') p.text.toList).filter (!isVoid ·) = p.pieces.body.filter (!isVoid ·) := by
  rw [pieces]
  split
  · next rest hs => rw [hs, fields_cons_self, List.filter_cons_of_neg (by decide)]
  · next hs => rw [hs]; decide
  · next rest hs =>
    have hdot : '/' ∉ ['.'] := by decide
    rw [hs, ← List.singleton_append, fields_append hdot, List.filter_cons_of_neg (by decide),
      List.filter_cons_of_neg (by decide)]
  · rfl

theorem components_eq (p : Path) : p.components =
    p.pieces.anchor.components ++ componentsOf (fields (· == '/') p.text.toList) := by
  rw [components, Pieces.components, componentsOf, filter_fields]

/-- A path that is not empty begins with the same whatever a slash puts behind it. -/
theorem anchor_append_slash {s : List Char} (hs : s ≠ []) (t : List Char) :
    (pieces ⟨.ofList (s ++ '/' :: t)⟩).anchor = (pieces ⟨.ofList s⟩).anchor := by
  obtain ⟨c, rest, rfl⟩ := List.exists_cons_of_ne_nil hs
  rw [pieces, pieces, String.toList_ofList, String.toList_ofList, List.cons_append]
  by_cases hroot : c = '/'
  · rw [hroot]; rfl
  by_cases hdot : c = '.'
  · cases rest with
    | nil => rw [hdot]; rfl
    | cons d rest =>
      by_cases hd : d = '/'
      · rw [hdot, hd]; rfl
      · split <;> split <;> simp_all
  · split <;> split <;> simp_all

/-- What stands in front of a slash makes the same components whatever follows. -/
theorem components_append_slash (s t : List Char) :
    components ⟨.ofList (s ++ '/' :: t)⟩ =
      components ⟨.ofList (s ++ ['/'])⟩ ++ componentsOf (fields (· == '/') t) := by
  have hanchor : (pieces ⟨.ofList (s ++ '/' :: t)⟩).anchor =
      (pieces ⟨.ofList (s ++ ['/'])⟩).anchor := by
    by_cases hs : s = []
    · rw [hs, pieces, pieces, String.toList_ofList, String.toList_ofList]
      rfl
    · rw [anchor_append_slash hs, anchor_append_slash hs]
  have hempty : componentsOf (fields (· == '/') []) = [] := by decide
  rw [components_eq, components_eq, hanchor, String.toList_ofList, String.toList_ofList,
    fields_append_sep, fields_append_sep, componentsOf_append, componentsOf_append, hempty,
    List.append_nil, List.append_assoc]

/-- A slash at the end makes no component. -/
theorem components_slash {s : List Char} (hs : s ≠ []) :
    components ⟨.ofList (s ++ ['/'])⟩ = components ⟨.ofList s⟩ := by
  have hempty : componentsOf (fields (· == '/') []) = [] := by decide
  rw [components_eq, components_eq, anchor_append_slash hs, String.toList_ofList,
    String.toList_ofList, fields_append_sep, componentsOf_append, hempty, List.append_nil]

/-- The text of a path below another one, if the other one is not empty and no
slash begins the path. -/
theorem exists_text_join (p : Path) (hp : p.text ≠ "") {below : String}
    (hbelow : below.toList.head? ≠ some '/') :
    ∃ front, (p.join below) = ⟨.ofList (front ++ '/' :: below.toList)⟩ ∧
      components ⟨.ofList (front ++ ['/'])⟩ = p.components := by
  rw [join]
  split
  · next hhead => exact absurd hhead hbelow
  · next hlast _ =>
    exact absurd (String.toList_eq_nil_iff.1 (List.getLast?_eq_none_iff.1 hlast)) hp
  · next hlast _ =>
    obtain ⟨front, hfront⟩ := List.getLast?_eq_some_iff.1 hlast
    refine ⟨front, ?_, ?_⟩
    · rw [Path.mk.injEq, ← String.toList_inj, String.toList_append, hfront, String.toList_ofList,
        List.append_assoc, List.singleton_append]
    · rw [← hfront, String.ofList_toList]
  · refine ⟨p.text.toList, ?_, ?_⟩
    · simp [← String.toList_inj]
    · rw [components_slash (mt String.toList_eq_nil_iff.1 hp), String.ofList_toList]

theorem join_empty {p : Path} (hp : p.text = "") (below : String) : p.join below = ⟨below⟩ := by
  rw [join, hp]
  split
  · rfl
  · rfl
  · next h _ => cases h
  · next h _ => cases h

/-- What a path below another one begins with depends on its first character
only. -/
theorem exists_join_eq (p : Path) (head : Option Char) :
    ∃ front, ∀ below : String, below.toList.head? = head →
      p.join below = ⟨.ofList (front ++ below.toList)⟩ := by
  have hsame : ∀ below : String, (⟨below⟩ : Path) = ⟨.ofList ([] ++ below.toList)⟩ := by
    intro below
    rw [List.nil_append, String.ofList_toList]
  by_cases hroot : head = some '/'
  · refine ⟨[], fun below hbelow => ?_⟩
    rw [join, hbelow, hroot]
    exact hsame below
  cases hlast : p.text.toList.getLast? with
  | none =>
    have hempty : p.text = "" := String.toList_eq_nil_iff.1 (List.getLast?_eq_none_iff.1 hlast)
    exact ⟨[], fun below _ => (join_empty hempty below).trans (hsame below)⟩
  | some l =>
    by_cases hl : l = '/'
    · refine ⟨p.text.toList, fun below hbelow => ?_⟩
      have hjoin : p.join below = ⟨p.text ++ below⟩ := by
        rw [join, hbelow, hlast, hl]
        split
        · exact absurd rfl hroot
        · next h => cases h
        · rfl
        · next hval _ heq => exact absurd (Option.some.inj heq).symm hval
      rw [hjoin, Path.mk.injEq, ← String.toList_inj, String.toList_append, String.toList_ofList]
    · refine ⟨p.text.toList ++ ['/'], fun below hbelow => ?_⟩
      have hjoin : p.join below = ⟨p.text ++ "/" ++ below⟩ := by
        rw [join, hbelow, hlast]
        split
        · exact absurd rfl hroot
        · next h => cases h
        · next h => exact absurd (Option.some.inj h) hl
        · rfl
      rw [hjoin, Path.mk.injEq, ← String.toList_inj]
      simp

/-- What follows a slash is put behind components that do not depend on it. -/
theorem exists_components_join (p : Path) (s : String) :
    ∃ front, ∀ t : String, (p.join (s ++ "/" ++ t)).components =
      front ++ componentsOf (fields (· == '/') t.toList) := by
  obtain ⟨front, hfront⟩ := p.exists_join_eq (s.toList ++ ['/']).head?
  refine ⟨components ⟨.ofList (front ++ s.toList ++ ['/'])⟩, fun t => ?_⟩
  have htext : (s ++ "/" ++ t).toList = s.toList ++ '/' :: t.toList := by simp
  have hhead : (s ++ "/" ++ t).toList.head? = (s.toList ++ ['/']).head? := by
    rw [htext]
    cases s.toList <;> rfl
  rw [hfront _ hhead, htext, ← List.append_assoc, components_append_slash]

/-- A name below a path is its last component. -/
theorem components_join (p : Path) {name : String} (hname : IsFileName name) :
    (p.join name).components = p.components ++ [.name name] := by
  have hhead : name.toList.head? ≠ some '/' := fun h => hname.2.2.2 (List.mem_of_head? h)
  by_cases hp : p.text = ""
  · have hempty : p = .ofComponents [] := congrArg Path.mk hp
    have hname' := isResolved_nil.concat hname
    rw [hempty, join_ofComponents isResolved_nil hname, components_ofComponents hname',
      components_ofComponents isResolved_nil]
  · obtain ⟨front, hjoin, hfront⟩ := p.exists_text_join hp hhead
    rw [hjoin, components_append_slash, hfront, fields_of_not_mem hname.2.2.2,
      componentsOf_singleton hname]

/-- A path below another one, by way of the names in between. -/
def below (p : Path) (names : List String) : Path := names.foldl Path.join p

theorem below_cons (p : Path) (name : String) (names : List String) :
    p.below (name :: names) = (p.join name).below names := rfl

theorem below_append (p : Path) (names others : List String) :
    p.below (names ++ others) = (p.below names).below others := List.foldl_append

theorem below_concat (p : Path) (names : List String) (name : String) :
    p.below (names ++ [name]) = (p.below names).join name := p.below_append names [name]

theorem components_below (p : Path) {names : List String} (h : ∀ name ∈ names, IsFileName name) :
    (p.below names).components = p.components ++ names.map .name := by
  induction names generalizing p with
  | nil => rw [List.map_nil, List.append_nil]; rfl
  | cons name names ih =>
    rw [List.forall_mem_cons] at h
    rw [below_cons, ih _ h.2, components_join p h.1, List.append_assoc]
    rfl

/-- Names stay where they are when what is in front of them is resolved. -/
theorem components_normalize_append {p : Path} {front : List Component} (names : List String)
    (hp : p.components = front ++ names.map .name) (h : ∀ name ∈ names, IsFileName name) :
    p.normalize.components = front.foldl resolveStep [] ++ names.map .name := by
  have hinner : ∀ c ∈ names.map Component.name, c.IsInner := List.forall_mem_map.2 h
  have hup : Component.up ∉ names.map Component.name := by simp
  rw [components_normalize, hp, List.foldl_append, foldl_resolveStep_names _ hinner hup]

theorem components_normalize_below (p : Path) {names : List String}
    (h : ∀ name ∈ names, IsFileName name) :
    (p.below names).normalize.components = p.normalize.components ++ names.map .name := by
  rw [components_normalize_append names (p.components_below h) h, components_normalize]

theorem IsCanonical.below {p : Path} (hp : p.IsCanonical) {names : List String}
    (h : ∀ name ∈ names, IsFileName name) : (p.below names).IsCanonical := by
  induction names generalizing p with
  | nil => exact hp
  | cons name names ih =>
    rw [List.forall_mem_cons] at h
    exact ih (hp.join h.1) h.2

theorem fileName_below (p : Path) (names : List String) {name : String} (hname : IsFileName name) :
    (p.below (names ++ [name])).fileName = some name := by
  rw [below_concat, fileName, components_join _ hname, List.getLast?_concat]

end Path

end ResourceAudit
