import ResourceAudit.Path.Normal
import ResourceAudit.Proofs.Text.Fields

/-!
# ResourceAudit.Proofs.Path.Normal

Paths that are written as their components are.  Of these a list of components
has one only, so that two of them that are the same path are the same text
(`IsCanonical.eq_of_same`).  What `Path.normalize` gives is written like this,
and so is a path below such a path (`IsCanonical.join`).
-/

namespace ResourceAudit

open ResourceAudit.Text

/-! ## components -/

/-- Being the name of a file: not empty, not made of one or two dots, and
without a slash. -/
def IsFileName (s : String) : Prop := s ≠ "" ∧ s ≠ "." ∧ s ≠ ".." ∧ '/' ∉ s.toList

instance (s : String) : Decidable (IsFileName s) :=
  inferInstanceAs (Decidable (s ≠ "" ∧ s ≠ "." ∧ s ≠ ".." ∧ '/' ∉ s.toList))

/-- Being a component that may stand behind the first one. -/
def Component.IsInner : Component → Prop
  | .up => True
  | .name s => IsFileName s
  | _ => False

/-- The components that a path can have once it is normalized: no dot, and a step
up in first place only, or right behind the root. -/
def IsResolved (cs : List Component) : Prop :=
  ∃ front rest, (front = [] ∨ front = [Component.root]) ∧ cs = front ++ rest ∧
    (∀ c ∈ rest, c.IsInner) ∧ Component.up ∉ rest.tail

theorem isResolved_nil : IsResolved [] := ⟨[], [], .inl rfl, rfl, by simp⟩

theorem isResolved_root : IsResolved [.root] := ⟨[.root], [], .inr rfl, rfl, by simp⟩

theorem isResolved_up {front : List Component} (h : front = [] ∨ front = [Component.root]) :
    IsResolved (front ++ [.up]) := ⟨front, [.up], h, rfl, by simp [Component.IsInner]⟩

theorem IsResolved.concat {cs : List Component} (h : IsResolved cs) {name : String}
    (hname : IsFileName name) : IsResolved (cs ++ [.name name]) := by
  obtain ⟨front, rest, hfront, rfl, hrest, hup⟩ := h
  refine ⟨front, rest ++ [.name name], hfront, by rw [List.append_assoc], ?_, ?_⟩
  · rw [List.forall_mem_append, List.forall_mem_singleton]
    exact ⟨hrest, hname⟩
  · cases rest with
    | nil => simp
    | cons c rest => simpa using hup

theorem IsResolved.dropLast {cs : List Component} (h : IsResolved cs) : IsResolved cs.dropLast := by
  obtain ⟨front, rest, hfront, rfl, hrest, hup⟩ := h
  cases rest with
  | nil =>
    rcases hfront with rfl | rfl
    · exact isResolved_nil
    · exact isResolved_nil
  | cons c rest =>
    refine ⟨front, (c :: rest).dropLast, hfront, List.dropLast_append_of_ne_nil (by simp), ?_, ?_⟩
    · exact fun d hd => hrest d (List.dropLast_subset _ hd)
    · rw [List.tail_dropLast]
      exact fun hmem => hup (List.dropLast_subset _ hmem)

/-- A component that may stand behind the first one is a piece of text. -/
theorem Component.IsInner.piece {c : Component} (h : c.IsInner) :
    '/' ∉ c.text.toList ∧ isVoid c.text.toList = false ∧ componentOf c.text.toList = c := by
  cases c with
  | root => cases h
  | here => cases h
  | up => exact ⟨by decide, by decide, by decide⟩
  | name s =>
    obtain ⟨hempty, hdot, hdots, hslash⟩ := h
    have hne : ∀ t : String, s ≠ t → s.toList ≠ t.toList := fun t hst he =>
      hst (String.toList_inj.1 he)
    refine ⟨hslash, ?_, ?_⟩
    · have h1 := hne "" hempty
      have h2 := hne "." hdot
      simp_all [isVoid, Component.text]
    · have h3 := hne ".." hdots
      simp_all [componentOf, Component.text]

theorem Component.isInner_componentOf {piece : List Char} (hslash : '/' ∉ piece)
    (hvoid : isVoid piece = false) : (componentOf piece).IsInner := by
  rw [isVoid, Bool.or_eq_false_iff, beq_eq_false_iff_ne, beq_eq_false_iff_ne] at hvoid
  rw [componentOf]
  split
  · trivial
  · next hdots =>
    have hne : ∀ t : String, piece ≠ t.toList → String.ofList piece ≠ t := fun t hpt he =>
      hpt (by rw [← he, String.toList_ofList])
    refine ⟨hne "" hvoid.1, hne "." hvoid.2, hne ".." (by simpa using hdots), ?_⟩
    rwa [String.toList_ofList]

/-! ## texts -/

/-- The components that the pieces of a text make. -/
def componentsOf (pieces : List (List Char)) : List Component :=
  (pieces.filter (!isVoid ·)).map componentOf

/-- The text of components with slashes between them. -/
def slashed (cs : List Component) : List Char := ['/'].intercalate (cs.map (·.text.toList))

theorem toList_intercalate_text (cs : List Component) :
    ("/".intercalate (cs.map Component.text)).toList = slashed cs := by
  rw [String.toList_intercalate, List.map_map]
  rfl

theorem componentsOf_texts {cs : List Component} (h : ∀ c ∈ cs, c.IsInner) :
    componentsOf (cs.map (·.text.toList)) = cs := by
  induction cs with
  | nil => rfl
  | cons c cs ih =>
    rw [List.forall_mem_cons] at h
    obtain ⟨-, hvoid, hc⟩ := h.1.piece
    have hrest := ih h.2
    rw [componentsOf] at hrest ⊢
    rw [List.map_cons, List.filter_cons_of_pos (by simp [hvoid]), List.map_cons, hc, hrest]

theorem fields_slashed {c : Component} {cs : List Component} (h : ∀ d ∈ c :: cs, d.IsInner) :
    fields (· == '/') (slashed (c :: cs)) = (c :: cs).map (·.text.toList) := by
  refine fields_intercalate (by simp) ?_
  rw [List.forall_mem_map]
  exact fun d hd => (h d hd).piece.1

theorem componentsOf_fields_slashed {cs : List Component} (h : ∀ c ∈ cs, c.IsInner) :
    componentsOf (fields (· == '/') (slashed cs)) = cs := by
  cases cs with
  | nil => rfl
  | cons c cs => rw [fields_slashed h, componentsOf_texts h]

/-- A text whose first piece is neither empty nor a dot has no anchor. -/
theorem pieces_of_fields {s : List Char} {first : List Char} {others : List (List Char)}
    (h : fields (· == '/') s = first :: others) (hvoid : isVoid first = false) :
    Path.pieces ⟨.ofList s⟩ = ⟨.none, first :: others⟩ := by
  rw [Path.pieces, String.toList_ofList]
  split
  · next rest =>
    rw [fields_cons_self, List.cons.injEq] at h
    rw [← h.1] at hvoid
    cases hvoid
  · rw [fields_of_not_mem (by decide), List.cons.injEq] at h
    rw [← h.1] at hvoid
    cases hvoid
  · next rest =>
    have hdot : '/' ∉ ['.'] := by decide
    rw [← List.singleton_append, fields_append hdot, List.cons.injEq] at h
    rw [← h.1] at hvoid
    cases hvoid
  · rw [h]

theorem slashed_concat {cs : List Component} (h : cs ≠ []) (c : Component) :
    slashed (cs ++ [c]) = slashed cs ++ '/' :: c.text.toList := by
  induction cs with
  | nil => exact absurd rfl h
  | cons d cs ih =>
    cases cs with
    | nil => simp [slashed]
    | cons e cs =>
      have hrest := ih (by simp)
      simp only [slashed, List.cons_append, List.map_cons, List.intercalate_cons_cons] at hrest ⊢
      simp only [hrest, List.append_assoc]

/-- No slash stands at the end. -/
theorem exists_getLast?_slashed {cs : List Component} (hne : cs ≠ []) (h : ∀ c ∈ cs, c.IsInner) :
    ∃ l, (slashed cs).getLast? = some l ∧ l ≠ '/' := by
  obtain ⟨init, c, rfl⟩ := List.eq_nil_or_concat cs |>.resolve_left hne
  rw [List.concat_eq_append] at *
  obtain ⟨hslash, hvoid, -⟩ := (h c (by simp)).piece
  have htext : c.text.toList ≠ [] := by
    rintro he
    rw [he] at hvoid
    cases hvoid
  obtain ⟨l, hl⟩ := Option.ne_none_iff_exists'.1 (mt List.getLast?_eq_none_iff.1 htext)
  refine ⟨l, ?_, fun he => hslash (he ▸ List.mem_of_getLast? hl)⟩
  cases init with
  | nil => simpa [slashed] using hl
  | cons d init => rw [slashed_concat (by simp), List.getLast?_append, List.getLast?_cons, hl]; rfl

theorem text_ofComponents_root (cs : List Component) :
    (Path.ofComponents (.root :: cs)).text = .ofList ('/' :: slashed cs) := by
  rw [Path.ofComponents, ← String.toList_inj, String.toList_append, toList_intercalate_text]
  simp

theorem text_ofComponents_inner {cs : List Component} (h : ∀ c ∈ cs, c.IsInner) :
    (Path.ofComponents cs).text = .ofList (slashed cs) := by
  rw [← toList_intercalate_text, String.ofList_toList]
  unfold Path.ofComponents
  split
  · exact absurd (h .root List.mem_cons_self) (by simp [Component.IsInner])
  · rfl

/-- What a path begins with does not depend on the components behind it. -/
theorem exists_text_ofComponents {front : List Component}
    (hfront : front = [] ∨ front = [Component.root]) :
    ∃ s, ∀ rest : List Component, (∀ c ∈ rest, c.IsInner) →
      (Path.ofComponents (front ++ rest)).text = .ofList (s ++ slashed rest) := by
  rcases hfront with rfl | rfl
  · exact ⟨[], fun rest => text_ofComponents_inner⟩
  · exact ⟨['/'], fun rest _ => text_ofComponents_root rest⟩

/-- Components are read back from the path they make up. -/
theorem components_ofComponents {cs : List Component} (h : IsResolved cs) :
    (Path.ofComponents cs).components = cs := by
  obtain ⟨front, rest, rfl | rfl, hcs, hrest, -⟩ := h
  · obtain rfl : cs = rest := hcs
    have htext : Path.ofComponents cs = ⟨.ofList (slashed cs)⟩ := by
      rw [← text_ofComponents_inner hrest]
    rw [htext, Path.components]
    cases cs with
    | nil => rfl
    | cons c cs =>
      have hvoid := (hrest c List.mem_cons_self).piece.2.1
      rw [pieces_of_fields (fields_slashed hrest) hvoid]
      exact componentsOf_texts hrest
  · obtain rfl : cs = .root :: rest := hcs
    have htext : Path.ofComponents (.root :: rest) = ⟨.ofList ('/' :: slashed rest)⟩ := by
      rw [← text_ofComponents_root]
    rw [htext, Path.components, Path.pieces, String.toList_ofList]
    exact congrArg (Component.root :: ·) (componentsOf_fields_slashed hrest)

/-! ## canonical paths -/

/-- Being written as its components are, and these as they are once resolved. -/
def Path.IsCanonical (p : Path) : Prop := ∃ cs, IsResolved cs ∧ Path.ofComponents cs = p

theorem isCanonical_ofComponents {cs : List Component} (h : IsResolved cs) :
    (Path.ofComponents cs).IsCanonical := ⟨cs, h, rfl⟩

theorem Path.IsCanonical.isResolved {p : Path} (h : p.IsCanonical) : IsResolved p.components := by
  obtain ⟨cs, hcs, rfl⟩ := h
  rwa [components_ofComponents hcs]

theorem Path.IsCanonical.ofComponents_components {p : Path} (h : p.IsCanonical) :
    Path.ofComponents p.components = p := by
  obtain ⟨cs, hcs, rfl⟩ := h
  rw [components_ofComponents hcs]

/-- Behind its anchor, a path has components that may stand behind the first one. -/
theorem Path.isInner_of_mem_body {p : Path} {c : Component} (hc : c ∈ componentsOf p.pieces.body) :
    c.IsInner := by
  have hslash : ∀ piece ∈ p.pieces.body, '/' ∉ piece := by
    rw [pieces]
    split
    · exact fun piece => not_mem_of_mem_fields
    · simp
    · rw [List.forall_mem_cons]
      exact ⟨by simp, fun piece => not_mem_of_mem_fields⟩
    · exact fun piece => not_mem_of_mem_fields
  simp only [componentsOf, List.mem_map, List.mem_filter, Bool.not_eq_true'] at hc
  obtain ⟨piece, ⟨hmem, hvoid⟩, rfl⟩ := hc
  exact Component.isInner_componentOf (hslash piece hmem) hvoid

theorem Path.exists_components (p : Path) :
    ∃ front rest, front ∈ [[], [Component.root], [Component.here]] ∧ p.components = front ++ rest ∧
      ∀ c ∈ rest, c.IsInner := by
  refine ⟨p.pieces.anchor.components, componentsOf p.pieces.body, ?_, rfl,
    fun c => isInner_of_mem_body⟩
  cases p.pieces.anchor <;> simp [Anchor.components]

theorem IsResolved.resolveStep {cs : List Component} (h : IsResolved cs) {c : Component}
    (hc : c.IsInner) : IsResolved (resolveStep cs c) := by
  cases c with
  | root => cases hc
  | here => cases hc
  | name s => exact h.concat hc
  | up =>
    rw [ResourceAudit.resolveStep]
    split
    · next hfront => exact isResolved_up hfront
    · exact h.dropLast

theorem IsResolved.foldl {cs : List Component} (h : IsResolved cs) {ds : List Component}
    (hds : ∀ d ∈ ds, d.IsInner) : IsResolved (ds.foldl ResourceAudit.resolveStep cs) := by
  induction ds generalizing cs with
  | nil => exact h
  | cons d ds ih =>
    rw [List.forall_mem_cons] at hds
    exact ih (h.resolveStep hds.1) hds.2

/-- Names are kept as they are. -/
theorem foldl_resolveStep_names (cs : List Component) {rest : List Component}
    (h : ∀ c ∈ rest, c.IsInner) (hup : Component.up ∉ rest) :
    rest.foldl resolveStep cs = cs ++ rest := by
  induction rest generalizing cs with
  | nil => rw [List.foldl_nil, List.append_nil]
  | cons c rest ih =>
    rw [List.forall_mem_cons] at h
    rw [List.mem_cons, not_or] at hup
    have hstep : resolveStep cs c = cs ++ [c] := by
      cases c with
      | root => cases h.1
      | here => cases h.1
      | up => exact absurd rfl hup.1
      | name s => rfl
    rw [List.foldl_cons, hstep, ih _ h.2 hup.2, List.append_assoc, List.singleton_append]

/-- What has been resolved stays as it is. -/
theorem IsResolved.foldl_resolveStep {cs : List Component} (h : IsResolved cs) :
    cs.foldl ResourceAudit.resolveStep [] = cs := by
  obtain ⟨front, rest, hfront, rfl, hrest, hup⟩ := h
  have hstart : front.foldl ResourceAudit.resolveStep [] = front := by
    rcases hfront with rfl | rfl <;> rfl
  rw [List.foldl_append, hstart]
  cases rest with
  | nil => rw [List.foldl_nil, List.append_nil]
  | cons c rest =>
    rw [List.forall_mem_cons] at hrest
    have hstep : ResourceAudit.resolveStep front c = front ++ [c] := by
      cases c with
      | root => cases hrest.1
      | here => cases hrest.1
      | up => exact if_pos hfront
      | name s => rfl
    rw [List.foldl_cons, hstep, foldl_resolveStep_names _ hrest.2 hup, List.append_assoc,
      List.singleton_append]

theorem Path.isResolved_foldl_components (p : Path) :
    IsResolved (p.components.foldl resolveStep []) := by
  obtain ⟨front, rest, hfront, hp, hrest⟩ := p.exists_components
  rw [hp, List.foldl_append]
  refine IsResolved.foldl ?_ hrest
  simp only [List.mem_cons, List.not_mem_nil, or_false] at hfront
  rcases hfront with rfl | rfl | rfl
  · exact isResolved_nil
  · exact isResolved_root
  · exact isResolved_nil

/-- A path is written as its components are once it is normalized. -/
theorem Path.isCanonical_normalize (p : Path) : p.normalize.IsCanonical :=
  isCanonical_ofComponents p.isResolved_foldl_components

theorem Path.components_normalize (p : Path) :
    p.normalize.components = p.components.foldl resolveStep [] :=
  components_ofComponents p.isResolved_foldl_components

/-- The paths that are written as their components are are those that
normalizing leaves as they are. -/
theorem Path.isCanonical_iff {p : Path} : p.IsCanonical ↔ p.normalize = p := by
  constructor
  · intro h
    rw [normalize, h.isResolved.foldl_resolveStep, h.ofComponents_components]
  · intro h
    exact h ▸ p.isCanonical_normalize

/-- A name that no slash begins is put below a path that no slash ends with one
between them. -/
theorem Path.join_of_getLast? {p : Path} {name : String} {c l : Char}
    (hhead : name.toList.head? = some c) (hc : c ≠ '/') (hlast : p.text.toList.getLast? = some l)
    (hl : l ≠ '/') : p.join name = ⟨p.text ++ "/" ++ name⟩ := by
  rw [join, hhead, hlast]
  split <;> simp_all

/-- A name below a path becomes its last component. -/
theorem join_ofComponents {cs : List Component} (h : IsResolved cs) {name : String}
    (hname : IsFileName name) :
    (Path.ofComponents cs).join name = Path.ofComponents (cs ++ [.name name]) := by
  have hhead : ∃ c, name.toList.head? = some c ∧ c ≠ '/' := by
    obtain ⟨hempty, -, -, hslash⟩ := hname
    obtain ⟨c, s, hs⟩ := List.exists_cons_of_ne_nil (mt String.toList_eq_nil_iff.1 hempty)
    exact ⟨c, by rw [hs, List.head?_cons], fun he => hslash (by simp [hs, he])⟩
  obtain ⟨c, hhead, hc⟩ := hhead
  have hinner : (Component.name name).IsInner := hname
  obtain ⟨front, rest, hfront, rfl, hrest, -⟩ := h
  cases rest with
  | nil =>
    rcases hfront with rfl | rfl
    · simp [Path.join, hhead, hc, Path.ofComponents, Component.text]
    · simp [Path.join, hhead, hc, Path.ofComponents, Component.text]
  | cons d rest =>
    obtain ⟨l, hlast, hl⟩ := exists_getLast?_slashed (List.cons_ne_nil d rest) hrest
    obtain ⟨s, hs⟩ := exists_text_ofComponents hfront
    have htext := hs _ hrest
    have htext' := hs _ (List.forall_mem_append.2 ⟨hrest, List.forall_mem_singleton.2 hinner⟩)
    have hend : (Path.ofComponents (front ++ d :: rest)).text.toList.getLast? = some l := by
      rw [htext, String.toList_ofList, List.getLast?_append, hlast, Option.some_or]
    rw [Path.join_of_getLast? hhead hc hend hl, htext, List.append_assoc, Path.mk.injEq, htext',
      slashed_concat (List.cons_ne_nil d rest)]
    simp [← String.toList_inj, Component.text]

theorem Path.IsCanonical.join_eq {p : Path} (h : p.IsCanonical) {name : String}
    (hname : IsFileName name) : p.join name = Path.ofComponents (p.components ++ [.name name]) := by
  have hjoin := join_ofComponents h.isResolved hname
  rwa [h.ofComponents_components] at hjoin

theorem Path.IsCanonical.join {p : Path} (h : p.IsCanonical) {name : String}
    (hname : IsFileName name) : (p.join name).IsCanonical :=
  ⟨_, h.isResolved.concat hname, (h.join_eq hname).symm⟩

/-- There is one way to write a path as its components are. -/
theorem Path.IsCanonical.eq_of_same {p q : Path} (hp : p.IsCanonical) (hq : q.IsCanonical)
    (h : p.same q = true) : p = q := by
  rw [← hp.ofComponents_components, ← hq.ofComponents_components, eq_of_beq h]

/-! ## absolute paths -/

theorem Path.isAbsolute_iff {p : Path} : p.isAbsolute = true ↔ p.text.toList.head? = some '/' := by
  rw [isAbsolute, pieces]
  generalize p.text.toList = s
  split
  · simp
  · decide
  · simp
  · next hroot _ _ =>
    have hnone : (Anchor.none == Anchor.root) = false := rfl
    refine ⟨fun h => absurd h (Bool.eq_false_iff.1 hnone), fun h => ?_⟩
    cases s with
    | nil => cases h
    | cons c rest => exact absurd (congrArg (· :: rest) (Option.some.inj h)) (hroot rest)

theorem Path.isAbsolute_join {dir : Path} (h : dir.isAbsolute = true) (below : String) :
    (dir.join below).isAbsolute = true := by
  rw [isAbsolute_iff] at h ⊢
  rw [join]
  split
  · next hbelow => exact hbelow
  · next hnone _ =>
    rw [List.getLast?_eq_none_iff.1 hnone] at h
    cases h
  · rw [String.toList_append, List.head?_append, h]
    rfl
  · rw [String.toList_append, String.toList_append, List.head?_append, List.head?_append, h]
    rfl

/-- The root stays where it is. -/
theorem exists_foldl_resolveStep_root (rest cs : List Component) :
    ∃ rest', cs.foldl resolveStep (.root :: rest) = .root :: rest' := by
  induction cs generalizing rest with
  | nil => exact ⟨rest, rfl⟩
  | cons c cs ih =>
    have hstep : ∃ rest', resolveStep (.root :: rest) c = .root :: rest' := by
      cases c with
      | here => exact ⟨rest, rfl⟩
      | root => exact ⟨rest ++ [.root], rfl⟩
      | name s => exact ⟨rest ++ [.name s], rfl⟩
      | up =>
        cases rest with
        | nil => exact ⟨[.up], rfl⟩
        | cons d rest => exact ⟨(d :: rest).dropLast, by simp [resolveStep]⟩
    obtain ⟨rest', hrest'⟩ := hstep
    rw [List.foldl_cons, hrest']
    exact ih rest'

/-- The components of an absolute path that has been normalized, and its text. -/
theorem Path.exists_components_normalize {p : Path} (h : p.isAbsolute = true) :
    ∃ rest, p.normalize.components = .root :: rest ∧ (∀ c ∈ rest, c.IsInner) ∧
      p.normalize.text = .ofList ('/' :: slashed rest) := by
  have hroot : p.pieces.anchor = .root := eq_of_beq h
  obtain ⟨rest, hrest⟩ := exists_foldl_resolveStep_root []
    ((p.pieces.body.filter (!isVoid ·)).map componentOf)
  have hcomponents : p.normalize.components = .root :: rest := by
    rw [components_normalize, components, Pieces.components, hroot]
    exact hrest
  refine ⟨rest, hcomponents, ?_, ?_⟩
  · obtain ⟨front, others, hfront, heq, hinner, -⟩ := p.isCanonical_normalize.isResolved
    rw [hcomponents] at heq
    rcases hfront with rfl | rfl
    · rw [List.nil_append] at heq
      exact absurd (hinner .root (heq ▸ List.mem_cons_self)) id
    · exact (List.cons.inj heq).2 ▸ hinner
  · rw [← p.isCanonical_normalize.ofComponents_components, hcomponents, text_ofComponents_root]

/-! ## characters -/

theorem mem_slashed {cs : List Component} {c : Char} (h : c ∈ slashed cs) :
    c = '/' ∨ ∃ d ∈ cs, c ∈ d.text.toList := by
  induction cs with
  | nil => cases h
  | cons d cs ih =>
    cases cs with
    | nil => exact .inr ⟨d, by simp, by simpa [slashed] using h⟩
    | cons e cs =>
      rw [slashed, List.map_cons, List.map_cons, List.intercalate_cons_cons, List.mem_append,
        List.mem_append, List.mem_singleton] at h
      rcases h with (h | h) | h
      · exact .inr ⟨d, by simp, h⟩
      · exact .inl h
      · rcases ih h with h | ⟨f, hf, hc⟩
        · exact .inl h
        · exact .inr ⟨f, List.mem_cons_of_mem _ hf, hc⟩

theorem mem_text_ofComponents {cs : List Component} {c : Char}
    (h : c ∈ (Path.ofComponents cs).text.toList) : c = '/' ∨ ∃ d ∈ cs, c ∈ d.text.toList := by
  unfold Path.ofComponents at h
  split at h
  · next rest =>
    rw [String.toList_append, toList_intercalate_text, List.mem_append] at h
    rcases h with h | h
    · exact .inl (List.mem_singleton.1 h)
    · rcases mem_slashed h with h | ⟨d, hd, hc⟩
      · exact .inl h
      · exact .inr ⟨d, List.mem_cons_of_mem _ hd, hc⟩
  · rw [toList_intercalate_text] at h
    exact mem_slashed h

theorem Anchor.text_of_mem {a : Anchor} {d : Component} (h : d ∈ a.components) :
    d.text.toList = a.text := by
  cases a <;> simp_all [Anchor.components, Anchor.text, Component.text]

theorem mem_text_componentOf {piece : List Char} {c : Char}
    (h : c ∈ (componentOf piece).text.toList) : c ∈ piece := by
  rw [componentOf] at h
  split at h
  · next hdots => rwa [eq_of_beq hdots]
  · rwa [Component.text, String.toList_ofList] at h

theorem Path.mem_text_of_mem_anchor {p : Path} {c : Char} (h : c ∈ p.pieces.anchor.text) :
    c ∈ p.text.toList := by
  rw [pieces] at h
  split at h <;> simp_all [Anchor.text]

theorem Path.mem_text_of_mem_body {p : Path} {piece : List Char} (hpiece : piece ∈ p.pieces.body)
    {c : Char} (hc : c ∈ piece) : c ∈ p.text.toList := by
  rw [pieces] at hpiece
  split at hpiece
  · next rest hs => exact hs ▸ List.mem_cons_of_mem _ (mem_of_mem_fields hpiece hc)
  · cases hpiece
  · next rest hs =>
    rcases List.mem_cons.1 hpiece with rfl | hpiece
    · cases hc
    · exact hs ▸ List.mem_cons_of_mem _ (List.mem_cons_of_mem _ (mem_of_mem_fields hpiece hc))
  · exact mem_of_mem_fields hpiece hc

/-- The text of a component is a part of the text of its path. -/
theorem Path.mem_text_of_mem_components {p : Path} {d : Component} (hd : d ∈ p.components) {c : Char}
    (hc : c ∈ d.text.toList) : c ∈ p.text.toList := by
  rw [components, Pieces.components, List.mem_append, List.mem_map] at hd
  rcases hd with hd | ⟨piece, hmem, rfl⟩
  · exact mem_text_of_mem_anchor (Anchor.text_of_mem hd ▸ hc)
  · exact mem_text_of_mem_body (List.mem_filter.1 hmem).1 (mem_text_componentOf hc)

theorem mem_of_mem_resolveStep {cs : List Component} {c d : Component} (h : d ∈ resolveStep cs c) :
    d ∈ cs ∨ d = c := by
  unfold resolveStep at h
  split at h
  · exact .inl h
  · split at h
    · simpa using h
    · exact .inl (List.dropLast_subset _ h)
  · simpa using h

theorem mem_of_mem_foldl_resolveStep {cs rest : List Component} {d : Component}
    (h : d ∈ rest.foldl resolveStep cs) : d ∈ cs ∨ d ∈ rest := by
  induction rest generalizing cs with
  | nil => exact .inl h
  | cons c rest ih =>
    rcases ih h with h | h
    · rcases mem_of_mem_resolveStep h with h | rfl
      · exact .inl h
      · exact .inr List.mem_cons_self
    · exact .inr (List.mem_cons_of_mem _ h)

/-- Normalizing a path brings in no characters but slashes. -/
theorem Path.mem_text_of_mem_normalize {p : Path} {c : Char} (h : c ∈ p.normalize.text.toList) :
    c = '/' ∨ c ∈ p.text.toList := by
  rw [normalize] at h
  rcases mem_text_ofComponents h with h | ⟨d, hd, hc⟩
  · exact .inl h
  · rcases mem_of_mem_foldl_resolveStep hd with hd | hd
    · cases hd
    · exact .inr (mem_text_of_mem_components hd hc)

theorem Path.mem_text_of_mem_join {p : Path} {below : String} {c : Char}
    (h : c ∈ (p.join below).text.toList) : c = '/' ∨ c ∈ p.text.toList ∨ c ∈ below.toList := by
  rw [join] at h
  split at h <;> simp only [String.toList_append, List.mem_append] at h
  · exact .inr (.inr h)
  · exact .inr (.inr h)
  · exact .inr h
  · rcases h with (h | h) | h
    · exact .inr (.inl h)
    · exact .inl (List.mem_singleton.1 h)
    · exact .inr (.inr h)

end ResourceAudit
