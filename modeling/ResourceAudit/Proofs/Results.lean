import Mathlib.Data.List.Forall2

/-!
# ResourceAudit.Proofs.Results

Results and faults.  Two computations that give related results, or both the same
fault, are compared by `ResultsMatch`; a list that is gone through gives one result
for each element (`mapM_eq_ok_iff`), or the fault of the first element that has one
(`mapM_eq_error_iff`).
-/

namespace ResourceAudit

variable {α β γ δ ε : Type}

/-- Being the same fault, or results that are related. -/
inductive ResultsMatch (R : α → β → Prop) : Except ε α → Except ε β → Prop
  | ok {a : α} {b : β} : R a b → ResultsMatch R (.ok a) (.ok b)
  | error (fault : ε) : ResultsMatch R (.error fault) (.error fault)

theorem ResultsMatch.ok_or_error {R : α → β → Prop} {x : Except ε α} {y : Except ε β}
    (h : ResultsMatch R x y) :
    (∃ a b, x = .ok a ∧ y = .ok b ∧ R a b) ∨ ∃ fault, x = .error fault ∧ y = .error fault := by
  cases h with
  | ok hab => exact .inl ⟨_, _, rfl, rfl, hab⟩
  | error fault => exact .inr ⟨fault, rfl, rfl⟩

theorem ResultsMatch.map {R : α → β → Prop} {S : γ → δ → Prop} {f : α → γ} {g : β → δ}
    {x : Except ε α} {y : Except ε β} (h : ResultsMatch R x y)
    (hfg : ∀ a b, R a b → S (f a) (g b)) : ResultsMatch S (x.map f) (y.map g) := by
  cases h with
  | ok hab => exact .ok (hfg _ _ hab)
  | error fault => exact .error fault

variable {f : α → Except ε β} {x : α} {xs : List α}

theorem mapM_cons_ok {y : β} (h : f x = .ok y) :
    (x :: xs).mapM f = (xs.mapM f).map (y :: ·) := by
  rw [List.mapM_cons, h]
  cases xs.mapM f <;> rfl

theorem mapM_cons_error {fault : ε} (h : f x = .error fault) :
    (x :: xs).mapM f = .error fault := by
  rw [List.mapM_cons, h]
  rfl

theorem mapM_cons_eq_ok {ys : List β} :
    (x :: xs).mapM f = .ok ys ↔ ∃ y zs, f x = .ok y ∧ xs.mapM f = .ok zs ∧ y :: zs = ys := by
  cases hx : f x with
  | error fault => simp [mapM_cons_error hx]
  | ok y =>
    rw [mapM_cons_ok hx]
    cases xs.mapM f <;> simp [Except.map]

/-- A list is gone through to the end if every element gives a result. -/
theorem exists_mapM_ok_iff : (∃ ys, xs.mapM f = .ok ys) ↔ ∀ x ∈ xs, ∃ y, f x = .ok y := by
  induction xs with
  | nil => exact ⟨fun _ => by simp, fun _ => ⟨[], rfl⟩⟩
  | cons x xs ih =>
    rw [List.forall_mem_cons, ← ih]
    simp only [mapM_cons_eq_ok]
    constructor
    · intro ⟨_, y, zs, hx, hxs, _⟩
      exact ⟨⟨y, hx⟩, zs, hxs⟩
    · intro ⟨⟨y, hx⟩, zs, hxs⟩
      exact ⟨y :: zs, y, zs, hx, hxs, rfl⟩

/-- The results come in the order of the list, one for each element. -/
theorem mapM_eq_ok_iff {ys : List β} :
    xs.mapM f = .ok ys ↔ List.Forall₂ (fun x y => f x = .ok y) xs ys := by
  induction xs generalizing ys with
  | nil => cases ys <;> simp [pure, Except.pure]
  | cons x xs ih =>
    rw [mapM_cons_eq_ok, List.forall₂_cons_left_iff]
    simp only [ih, eq_comm (b := ys)]

/-- The fault is that of the first element that has one. -/
theorem mapM_eq_error_iff {fault : ε} :
    xs.mapM f = .error fault ↔ ∃ before x after, xs = before ++ x :: after ∧
      (∀ y ∈ before, ∃ z, f y = .ok z) ∧ f x = .error fault := by
  constructor
  · intro h
    induction xs with
    | nil => cases h
    | cons x xs ih =>
      cases hx : f x with
      | error found =>
        obtain rfl : found = fault := Except.error.inj ((mapM_cons_error hx).symm.trans h)
        exact ⟨[], x, xs, rfl, by simp, hx⟩
      | ok y =>
        rw [mapM_cons_ok hx] at h
        have hrest : xs.mapM f = .error fault := by
          cases hxs : xs.mapM f <;> simp_all [Except.map]
        obtain ⟨before, z, after, rfl, hbefore, hz⟩ := ih hrest
        exact ⟨x :: before, z, after, rfl, List.forall_mem_cons.2 ⟨⟨y, hx⟩, hbefore⟩, hz⟩
  · rintro ⟨before, x, after, rfl, hbefore, hx⟩
    induction before with
    | nil => exact mapM_cons_error hx
    | cons y before ih =>
      rw [List.forall_mem_cons] at hbefore
      obtain ⟨⟨z, hz⟩, hbefore⟩ := hbefore
      rw [List.cons_append, mapM_cons_ok hz, ih hbefore]
      rfl

theorem exists_map_ok_iff {g : β → γ} {r : Except ε β} :
    (∃ c, r.map g = .ok c) ↔ ∃ b, r = .ok b := by
  cases r <;> simp [Except.map]

theorem map_eq_of_forall₂ {R : α → β → Prop} {f : α → γ} {g : β → γ} {xs : List α} {ys : List β}
    (h : List.Forall₂ R xs ys) (hfg : ∀ a b, R a b → f a = g b) : xs.map f = ys.map g := by
  have hmap : List.Forall₂ Eq (xs.map f) (ys.map g) := List.rel_map hfg h
  rwa [List.forall₂_eq_eq_eq] at hmap

theorem forall₂_trans {R : α → β → Prop} {S : β → γ → Prop} {T : α → γ → Prop}
    (hRS : ∀ a b c, R a b → S b c → T a c) {as : List α} {bs : List β} {cs : List γ}
    (has : List.Forall₂ R as bs) (hbs : List.Forall₂ S bs cs) : List.Forall₂ T as cs := by
  induction has generalizing cs with
  | nil => rwa [List.forall₂_nil_left_iff] at hbs ⊢
  | cons hab _ ih =>
    obtain ⟨c, others, hbc, hothers, rfl⟩ := List.forall₂_cons_left_iff.1 hbs
    exact .cons (hRS _ _ _ hab hbc) (ih hothers)

end ResourceAudit
