/-!
# ResourceAudit.Proofs.Sorting

Orders that are made of others, and sorting by them.  Comparing by a key and
comparing things of two kinds are total and transitive as the comparisons are that
they use; and what is sorted by such an order increases strictly if no two of it
are equal (`pairwise_mergeSort_lt`).
-/

namespace ResourceAudit

variable {α β : Type}

/-! ## orders by a key and of two kinds -/

section Key

variable {cmp : β → β → Ordering}

/-- Comparing by a key. -/
def compareBy (cmp : β → β → Ordering) (key : α → β) (a b : α) : Ordering := cmp (key a) (key b)

instance [Std.TransCmp cmp] (key : α → β) : Std.TransCmp (compareBy cmp key) where
  eq_swap {a b} := by
    rw [compareBy, compareBy]
    exact Std.OrientedCmp.eq_swap
  isLE_trans {a b c} hab hbc := by
    rw [compareBy] at *
    exact Std.TransCmp.isLE_trans hab hbc

/-- A key that tells elements apart tells which ones are equal. -/
theorem lawfulEqCmp_compareBy [Std.LawfulEqCmp cmp] {key : α → β}
    (hkey : ∀ a b, key a = key b → a = b) : Std.LawfulEqCmp (compareBy cmp key) where
  compare_self {a} := by
    rw [compareBy]
    exact Std.ReflCmp.compare_self
  eq_of_compare {a b} h := by
    rw [compareBy] at h
    exact hkey a b (Std.LawfulEqCmp.eq_of_compare h)

end Key

section Sum

variable {first : α → α → Ordering} {second : β → β → Ordering}

/-- Comparing elements of two kinds, of which the first kind comes first. -/
def compareSum (first : α → α → Ordering) (second : β → β → Ordering) : α ⊕ β → α ⊕ β → Ordering
  | .inl a, .inl b => first a b
  | .inl _, .inr _ => .lt
  | .inr _, .inl _ => .gt
  | .inr a, .inr b => second a b

instance [Std.TransCmp first] [Std.TransCmp second] : Std.TransCmp (compareSum first second) where
  eq_swap {a b} := by
    cases a <;> cases b <;> rw [compareSum, compareSum]
    case inl.inl => exact Std.OrientedCmp.eq_swap
    case inr.inr => exact Std.OrientedCmp.eq_swap
    all_goals rfl
  isLE_trans {a b c} hab hbc := by
    cases a <;> cases b <;> cases c <;> simp only [compareSum] at hab hbc ⊢
    case inl.inl.inl => exact Std.TransCmp.isLE_trans hab hbc
    case inr.inr.inr => exact Std.TransCmp.isLE_trans hab hbc
    all_goals simp_all

instance [Std.LawfulEqCmp first] [Std.LawfulEqCmp second] :
    Std.LawfulEqCmp (compareSum first second) where
  compare_self {a} := by
    cases a <;> rw [compareSum] <;> exact Std.ReflCmp.compare_self
  eq_of_compare {a b} h := by
    cases a <;> cases b <;> simp only [compareSum, reduceCtorEq] at h
    case inl.inl => exact congrArg Sum.inl (Std.LawfulEqCmp.eq_of_compare h)
    case inr.inr => exact congrArg Sum.inr (Std.LawfulEqCmp.eq_of_compare h)

end Sum

/-! ## sorting -/

/-- Elements of which no two are equal are sorted to a strictly increasing list. -/
theorem pairwise_mergeSort_lt {cmp : α → α → Ordering} [Std.TransCmp cmp] {xs : List α}
    (h : xs.Pairwise fun a b => cmp a b ≠ .eq) :
    (xs.mergeSort fun a b => (cmp a b).isLE).Pairwise fun a b => cmp a b = .lt := by
  have hsorted : (xs.mergeSort fun a b => (cmp a b).isLE).Pairwise fun a b =>
      (cmp a b).isLE = true := by
    refine List.pairwise_mergeSort ?_ ?_ xs
    · exact fun a b c => Std.TransCmp.isLE_trans
    · intro a b
      have hswap : cmp a b = (cmp b a).swap := Std.OrientedCmp.eq_swap
      rw [hswap]
      cases cmp b a <;> rfl
  have hdistinct : (xs.mergeSort fun a b => (cmp a b).isLE).Pairwise fun a b => cmp a b ≠ .eq := by
    refine ((List.mergeSort_perm xs _).pairwise_iff fun {a b} hne heq => hne ?_).2 h
    exact Std.OrientedCmp.eq_comm.1 heq
  refine (hsorted.and hdistinct).imp fun {a b} h => ?_
  obtain ⟨hle, hne⟩ := h
  cases hcompare : cmp a b with
  | lt => rfl
  | eq => exact absurd hcompare hne
  | gt =>
    rw [hcompare] at hle
    cases hle

end ResourceAudit
