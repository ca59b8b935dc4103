import Mathlib.Data.List.Basic
import Mathlib.Data.List.Induction
import Mathlib.Data.List.Nodup

/-!
# ResourceAudit.Proofs.Distinct

First occurrences: the elements of a list whose key no element before them
has.  Tables, groups and lists of projects all keep what comes first and drop
what repeats it, so the facts about that are proved once, here:

* `nodup_map_distinctBy` — what is kept has pairwise distinct keys;
* `mem_map_distinctBy` — no key gets lost;
* `find?_distinctBy` — for each key the first element with it is kept;
* `distinctBy_concat` — what one more element at the end changes;
* `distinctBy_append` — what more elements at the end change, so that parts which
  repeat what comes before them do not show (`distinctBy_flatMap_distinctBy`).
-/

namespace ResourceAudit

variable {α β κ μ : Type} [DecidableEq κ] [DecidableEq μ]

/-- The elements of a list whose key no element before them has. -/
def distinctBy (key : α → κ) : List α → List α
  | [] => []
  | a :: rest => a :: (distinctBy key rest).filter (key · ≠ key a)

theorem distinctBy_sublist (key : α → κ) (l : List α) : (distinctBy key l).Sublist l := by
  induction l with
  | nil => simp [distinctBy]
  | cons a rest ih =>
    rw [distinctBy]
    exact (List.filter_sublist.trans ih).cons_cons a

/-- What is kept has pairwise distinct keys. -/
theorem nodup_map_distinctBy (key : α → κ) (l : List α) : ((distinctBy key l).map key).Nodup := by
  induction l with
  | nil => simp [distinctBy]
  | cons a rest ih =>
    rw [distinctBy, List.map_cons, List.nodup_cons]
    constructor
    · simp
    · exact ih.sublist (List.filter_sublist.map key)

/-- The keys that are kept are those of the list. -/
theorem mem_map_distinctBy (key : α → κ) (l : List α) (k : κ) :
    k ∈ (distinctBy key l).map key ↔ k ∈ l.map key := by
  induction l with
  | nil => simp [distinctBy]
  | cons a rest ih =>
    simp only [List.mem_map] at ih
    by_cases hk : key a = k
    · simp [distinctBy, hk]
    · have hfilter : (∃ b, (b ∈ distinctBy key rest ∧ key b ≠ key a) ∧ key b = k) ↔
          ∃ b ∈ distinctBy key rest, key b = k := by
        constructor
        · rintro ⟨b, ⟨hb, -⟩, hbk⟩
          exact ⟨b, hb, hbk⟩
        · rintro ⟨b, hb, rfl⟩
          exact ⟨b, ⟨hb, Ne.symm hk⟩, rfl⟩
      simp only [distinctBy, List.mem_map, List.mem_cons, List.mem_filter, decide_eq_true_eq,
        exists_eq_or_imp, hk, false_or, hfilter, ih]

/-- The first element of a key is kept. -/
theorem find?_distinctBy (key : α → κ) (l : List α) (k : κ) :
    (distinctBy key l).find? (key · = k) = l.find? (key · = k) := by
  induction l with
  | nil => simp [distinctBy]
  | cons a rest ih =>
    rw [distinctBy]
    by_cases hk : key a = k
    · simp [hk]
    · rw [List.find?_cons_of_neg (by simpa using hk), List.find?_cons_of_neg (by simpa using hk),
        List.find?_filter, ← ih]
      congr 1
      funext b
      by_cases hb : key b = k
      · simp [hb, Ne.symm hk]
      · simp [hb]

/-- One more element at the end is kept if its key is new. -/
theorem distinctBy_concat (key : α → κ) (l : List α) (a : α) :
    distinctBy key (l ++ [a]) =
      if key a ∈ l.map key then distinctBy key l else distinctBy key l ++ [a] := by
  induction l with
  | nil => simp [distinctBy]
  | cons b rest ih =>
    rw [List.cons_append, distinctBy, ih, distinctBy, List.map_cons]
    by_cases hrest : key a ∈ rest.map key
    · rw [if_pos hrest, if_pos (List.mem_cons_of_mem _ hrest)]
    · rw [if_neg hrest, List.filter_append]
      by_cases hb : key a = key b
      · simp [hb]
      · rw [if_neg (by simpa [hb] using hrest)]
        simp [hb]

/-! ## parts of a list -/

/-- Of the elements at the end those are kept whose key is new. -/
theorem distinctBy_append (key : α → κ) (l l' : List α) :
    distinctBy key (l ++ l') =
      distinctBy key l ++ (distinctBy key l').filter (key · ∉ l.map key) := by
  induction l with
  | nil => simp [distinctBy]
  | cons a rest ih =>
    have hkeys : ∀ b, (decide (key b ≠ key a) && decide (key b ∉ rest.map key)) =
        decide (key b ∉ (a :: rest).map key) := by
      simp
    rw [List.cons_append, distinctBy, ih, distinctBy, List.filter_append, List.filter_filter,
      List.cons_append]
    simp only [hkeys]

/-- Elements at the end whose keys are all there before are not kept. -/
theorem distinctBy_append_of_subset (key : α → κ) {l l' : List α}
    (h : ∀ a ∈ l', key a ∈ l.map key) : distinctBy key (l ++ l') = distinctBy key l := by
  have hnone : (distinctBy key l').filter (key · ∉ l.map key) = [] := by
    rw [List.filter_eq_nil_iff]
    intro a ha hnew
    exact of_decide_eq_true hnew (h a ((distinctBy_sublist key l').subset ha))
  rw [distinctBy_append, hnone, List.append_nil]

/-- Of a list in two parts only what is kept of each matters. -/
theorem distinctBy_append_congr {key : α → κ} {l m l' m' : List α}
    (hl : distinctBy key l = distinctBy key m) (hl' : distinctBy key l' = distinctBy key m') :
    distinctBy key (l ++ l') = distinctBy key (m ++ m') := by
  have hkeys : ∀ k, k ∈ l.map key ↔ k ∈ m.map key := by
    intro k
    rw [← mem_map_distinctBy key l, hl, mem_map_distinctBy]
  simp only [distinctBy_append, hl, hl', hkeys]

theorem distinctBy_flatMap_congr {key : α → κ} {f g : β → List α} {xs : List β}
    (h : ∀ x ∈ xs, distinctBy key (f x) = distinctBy key (g x)) :
    distinctBy key (xs.flatMap f) = distinctBy key (xs.flatMap g) := by
  induction xs with
  | nil => rfl
  | cons x xs ih =>
    rw [List.forall_mem_cons] at h
    rw [List.flatMap_cons, List.flatMap_cons]
    exact distinctBy_append_congr h.1 (ih h.2)

/-- Parts that repeat an earlier part do not show. -/
theorem distinctBy_flatMap_distinctBy (key : α → κ) (part : β → μ) {f : β → List α} {xs : List β}
    (h : ∀ x ∈ xs, ∀ y ∈ xs, part x = part y → f x = f y) :
    distinctBy key (xs.flatMap f) = distinctBy key ((distinctBy part xs).flatMap f) := by
  induction xs using List.reverseRecOn with
  | nil => rfl
  | append_singleton xs x ih =>
    have hxs := ih fun a ha b hb => h a (List.mem_append_left _ ha) b (List.mem_append_left _ hb)
    rw [List.flatMap_append, List.flatMap_singleton, distinctBy_concat]
    by_cases hx : part x ∈ xs.map part
    · obtain ⟨y, hy, hpart⟩ := List.mem_map.1 hx
      have hsame : f y = f x := h y (List.mem_append_left _ hy) x (by simp) hpart
      have hkeys : ∀ a ∈ f x, key a ∈ (xs.flatMap f).map key := fun a ha =>
        List.mem_map_of_mem (List.mem_flatMap.2 ⟨y, hy, hsame ▸ ha⟩)
      rw [if_pos hx, distinctBy_append_of_subset key hkeys, hxs]
    · rw [if_neg hx, List.flatMap_append, List.flatMap_singleton]
      exact distinctBy_append_congr hxs rfl

end ResourceAudit
