import ResourceAudit.FileTree
import ResourceAudit.Proofs.Path.Normal

/-!
# ResourceAudit.Proofs.Path.Location

Where a path leads from a working directory, as it is written and once it is
normalized.  Components come to some steps up out of the directory they begin in
and the names behind these (`Ascent`).  A normalized path has the same names, but
of the steps up it keeps only whether their number is odd, since a step up cancels
the one before it like any other component (`Path.components_normalize_eq`).  So a
path leads to the same place as long as it leaves no directory more than once.
-/

namespace ResourceAudit

/-! ## places -/

/-- Goes on from a place by one component, without looking at any file.  A step up
stays at the root. -/
def Place.step (place : Place) : Component → Place
  | .root => []
  | .here => place
  | .up => place.dropLast
  | .name text => place ++ [text]

/-- The place a path leads to when `here` is the working directory. -/
def Path.placeFrom (p : Path) (here : Place) : Place := p.components.foldl Place.step here

/-- Where a path begins when `here` is the working directory. -/
def Path.origin (p : Path) (here : Place) : Place := if p.isAbsolute then [] else here

/-! ## ascents -/

/-- The steps up out of a directory that nothing before them cancels, and the names
that are left behind them. -/
structure Ascent where
  ups : Nat
  names : List String

def Ascent.step (a : Ascent) : Component → Ascent
  | .up => if a.names = [] then ⟨a.ups + 1, []⟩ else ⟨a.ups, a.names.dropLast⟩
  | .name text => ⟨a.ups, a.names ++ [text]⟩
  | _ => a

/-- What the components of a path come to, behind its root if it has one. -/
def Path.ascent (p : Path) : Ascent := p.components.foldl Ascent.step ⟨0, []⟩

namespace Ascent

/-- The place an ascent leads to. -/
def place (a : Ascent) (start : Place) : Place := start.take (start.length - a.ups) ++ a.names

/-- The components an ascent has when a step up cancels the step up before it. -/
def remnant (a : Ascent) : List Component :=
  .replicate (a.ups % 2) .up ++ a.names.map .name

theorem step_place (a : Ascent) (start : Place) {c : Component} (hc : c.IsInner) :
    (a.place start).step c = (a.step c).place start := by
  cases c with
  | root => cases hc
  | here => cases hc
  | name text => rw [Place.step, place, List.append_assoc]; rfl
  | up =>
    rw [Place.step, place, step]
    split
    · next hnames =>
      rw [hnames, place, List.append_nil, List.append_nil, List.dropLast_eq_take, List.length_take,
        List.take_take]
      dsimp only
      congr 1
      omega
    · next hnames => rw [List.dropLast_append_of_ne_nil hnames, place]

theorem foldl_step_place (a : Ascent) (start : Place) {cs : List Component}
    (h : ∀ c ∈ cs, c.IsInner) :
    cs.foldl Place.step (a.place start) = (cs.foldl step a).place start := by
  induction cs generalizing a with
  | nil => rfl
  | cons c cs ih =>
    rw [List.forall_mem_cons] at h
    rw [List.foldl_cons, List.foldl_cons, a.step_place start h.1, ih _ h.2]

theorem resolveStep_remnant (a : Ascent) {front : List Component}
    (hfront : front = [] ∨ front = [.root]) {c : Component} (hc : c.IsInner) :
    resolveStep (front ++ a.remnant) c = front ++ (a.step c).remnant := by
  obtain ⟨ups, names⟩ := a
  cases c with
  | root => cases hc
  | here => cases hc
  | name text => simp [resolveStep, step, remnant]
  | up =>
    rcases List.eq_nil_or_concat names with rfl | ⟨others, last, rfl⟩
    · -- with no names left, a step up is put behind an even number and cancels an odd one
      rcases Nat.mod_two_eq_zero_or_one ups with heven | hodd
      · have hnext : (ups + 1) % 2 = 1 := by omega
        simp [resolveStep, step, remnant, heven, hnext, hfront]
      · have hnext : (ups + 1) % 2 = 0 := by omega
        simp [resolveStep, step, remnant, hodd, hnext, List.append_eq_singleton_iff]
    · have hnames : others.concat last ≠ [] := by simp
      have hkept : ∀ base : List Component,
          resolveStep (base ++ [.name last]) .up = base := by
        simp [resolveStep, List.append_eq_singleton_iff]
      rw [step, if_neg hnames, List.concat_eq_append, List.dropLast_concat]
      simp only [remnant, List.map_append, List.map_singleton, ← List.append_assoc, hkept]

theorem foldl_resolveStep_remnant (a : Ascent) {front : List Component}
    (hfront : front = [] ∨ front = [.root]) {cs : List Component} (h : ∀ c ∈ cs, c.IsInner) :
    cs.foldl resolveStep (front ++ a.remnant) = front ++ (cs.foldl step a).remnant := by
  induction cs generalizing a with
  | nil => rfl
  | cons c cs ih =>
    rw [List.forall_mem_cons] at h
    rw [List.foldl_cons, List.foldl_cons, a.resolveStep_remnant hfront h.1, ih _ h.2]

/-- What is left of the steps up leads out of one directory at most. -/
theorem foldl_step_remnant (a : Ascent) (start : Place) :
    a.remnant.foldl Place.step start = place ⟨a.ups % 2, a.names⟩ start := by
  have hnames : ∀ base : Place, (a.names.map Component.name).foldl Place.step base =
      base ++ a.names := by
    intro base
    induction a.names generalizing base with
    | nil => rw [List.append_nil]; rfl
    | cons name names ih => rw [List.map_cons, List.foldl_cons, ih, Place.step]; simp
  rw [remnant, List.foldl_append, hnames, place]
  rcases Nat.mod_two_eq_zero_or_one a.ups with heven | hodd
  · simp [heven]
  · simp [hodd, Place.step, List.dropLast_eq_take]

theorem place_remnant_eq_iff (a : Ascent) (start : Place) :
    place ⟨a.ups % 2, a.names⟩ start = a.place start ↔
      a.ups ≤ 1 ∨ start.length ≤ a.ups % 2 := by
  rw [place, place, List.append_left_inj, List.take_eq_take_iff]
  dsimp only
  omega

end Ascent

/-! ## paths -/

namespace Path

theorem placeFrom_eq (p : Path) (here : Place) :
    p.placeFrom here = p.ascent.place (p.origin here) := by
  have hstart : ∀ start : Place, Ascent.place ⟨0, []⟩ start = start := by simp [Ascent.place]
  have hfold := fun start : Place =>
    Ascent.foldl_step_place ⟨0, []⟩ start fun c => isInner_of_mem_body (p := p)
  simp only [hstart] at hfold
  rw [placeFrom, ascent, origin, isAbsolute, components, Pieces.components]
  cases p.pieces.anchor with
  | none => exact hfold here
  | root => exact hfold []
  | here => exact hfold here

/-- A normalized path has its root, what is left of the steps up, and the names. -/
theorem components_normalize_eq (p : Path) : p.normalize.components =
    (if p.isAbsolute then [.root] else []) ++ p.ascent.remnant := by
  have hfold := fun (front : List Component) (hfront : front = [] ∨ front = [.root]) =>
    Ascent.foldl_resolveStep_remnant ⟨0, []⟩ hfront fun c => isInner_of_mem_body (p := p)
  have hstart : Ascent.remnant ⟨0, []⟩ = [] := rfl
  simp only [hstart, List.append_nil] at hfold
  rw [components_normalize, ascent, isAbsolute, components, Pieces.components]
  cases p.pieces.anchor with
  | none => exact hfold [] (.inl rfl)
  | root => exact hfold [.root] (.inr rfl)
  | here => exact hfold [] (.inl rfl)

/-- A normalized path leads out of one directory at most. -/
theorem placeFrom_normalize_eq (p : Path) (here : Place) :
    p.normalize.placeFrom here =
      Ascent.place ⟨p.ascent.ups % 2, p.ascent.names⟩ (p.origin here) := by
  rw [placeFrom, components_normalize_eq, origin, List.foldl_append, Ascent.foldl_step_remnant]
  split <;> rfl

/-- Normalizing once is enough. -/
theorem normalize_normalize (p : Path) : p.normalize.normalize = p.normalize :=
  isCanonical_iff.1 p.isCanonical_normalize

/-- A path leads to the same place once it is normalized, just if it is absolute, steps
up out of one directory at most, or has no more directories to step out of.  A path
that is normalized stays as it is. -/
theorem normalize_keeps_place (p : Path) :
    (∀ here, p.normalize.placeFrom here = p.placeFrom here ↔
      p.isAbsolute = true ∨ p.ascent.ups ≤ 1 ∨ here.length ≤ p.ascent.ups % 2) ∧
    p.normalize.normalize = p.normalize := by
  refine ⟨fun here => ?_, p.normalize_normalize⟩
  rw [placeFrom_normalize_eq, placeFrom_eq, Ascent.place_remnant_eq_iff, origin]
  by_cases habsolute : p.isAbsolute = true
  · simp [habsolute]
  · simp [habsolute]

/-- The second step up cancels the first, so that the normalized path leads to another
place. -/
theorem normalize_loses_place :
    (Path.mk "../../Strings.cs").placeFrom ["srv", "repo"] = ["Strings.cs"] ∧
      (Path.mk "../../Strings.cs").normalize.placeFrom ["srv", "repo"] =
        ["srv", "repo", "Strings.cs"] := by
  decide

end Path

end ResourceAudit
