import ResourceAudit.FileTree.Sources
import ResourceAudit.Proofs.Sorting

/-!
# ResourceAudit.Proofs.Path.Order

The order of paths.  Components are ordered by their kind and then by their
text, and lists of them from the front; so this is a total order in which only
spellings of the same path are equal, and sorting paths of which no two are the
same gives a strictly increasing list (`sortPaths_strict`).
-/

namespace ResourceAudit

/-! ## components -/

theorem Component.compare_eq_compareLex :
    Component.compare = compareLex (compareOn rank) (compareOn text) := by
  funext a b
  cases a <;> cases b <;> rfl

instance : Std.TransCmp Component.compare :=
  Component.compare_eq_compareLex ▸ inferInstance

instance : Std.LawfulEqCmp Component.compare where
  compare_self := by
    rw [Component.compare_eq_compareLex]
    exact Std.ReflCmp.compare_self
  eq_of_compare {a b} h := by
    rw [Component.compare_eq_compareLex, compareLex_eq_eq] at h
    have hrank : a.rank = b.rank := Std.LawfulEqCmp.eq_of_compare h.1
    have htext : a.text = b.text := Std.LawfulEqCmp.eq_of_compare h.2
    cases a <;> cases b <;> simp_all [Component.rank, Component.text]

/-! ## paths -/

theorem compareComponents_eq_compareLex :
    compareComponents = List.compareLex Component.compare := by
  funext as bs
  induction as generalizing bs with
  | nil => cases bs <;> rfl
  | cons a as ih =>
    cases bs with
    | nil => rfl
    | cons b bs => rw [compareComponents, List.compareLex_cons_cons, ih]

theorem Path.compare_eq_compareOn :
    Path.compare = fun p q => List.compareLex Component.compare p.components q.components := by
  funext p q
  rw [Path.compare, compareComponents_eq_compareLex]

/-- Only spellings of the same path are equal in the order of paths. -/
theorem Path.compare_eq_eq {p q : Path} : p.compare q = .eq ↔ p.same q = true := by
  rw [Path.compare_eq_compareOn, Path.same, beq_iff_eq]
  exact Std.LawfulEqCmp.compare_eq_iff_eq

instance : Std.TransCmp Path.compare := by
  have hcompare : Path.compare = compareBy (List.compareLex Component.compare) Path.components :=
    Path.compare_eq_compareOn
  rw [hcompare]
  infer_instance

/-! ## sorting -/

theorem mem_sortPaths {p : Path} {ps : List Path} : p ∈ sortPaths ps ↔ p ∈ ps :=
  List.mem_mergeSort

/-- Paths of which no two are the same are sorted to a strictly increasing
list. -/
theorem sortPaths_strict {ps : List Path} (h : ps.Pairwise fun p q => p.same q = false) :
    (sortPaths ps).Pairwise fun p q => p.compare q = .lt := by
  refine pairwise_mergeSort_lt (h.imp fun {p q} hne heq => ?_)
  rw [Path.compare_eq_eq, hne] at heq
  cases heq

theorem nodup_of_pairwise_compare {ps : List Path} (h : ps.Pairwise fun p q => p.compare q = .lt) :
    ps.Nodup := by
  refine h.imp fun {p q} hlt heq => ?_
  have hself : q.compare q = .eq := Path.compare_eq_eq.2 (beq_self_eq_true _)
  rw [heq, hself] at hlt
  cases hlt

end ResourceAudit
