import ResourceAudit.Glob.Pattern

/-!
# ResourceAudit.Proofs.Glob.Matching

What tokens match, as a relation (`Matches`), and that the matcher decides it.
The matcher gives up on a text as soon as one attempt has run to its end
(`Verdict.exhausted`).  No later attempt can do better then, since it begins
further behind; for the recursive wildcard, whose attempts begin behind slashes
only, this needs that it stands behind a slash itself (`dirsAllowed`).
-/

namespace ResourceAudit.Glob

/-! ## what tokens match -/

/-- The places of a text at which a recursive wildcard may end. -/
def starts (s : List Char) : List (List Char) := s :: directorySuffixes s ++ [[]]

/-- Being a text that tokens stand for. -/
def Matches : List Token → List Char → Prop
  | [], s => s = []
  | .anyText :: rest, s => ∃ u, u <:+ s ∧ Matches rest u
  | .anyDirs :: rest, s => ∃ u ∈ starts s, Matches rest u
  | token :: rest, s => ∃ c u, s = c :: u ∧ token.accepts c = true ∧ Matches rest u

theorem mem_suffixes {s u : List Char} : u ∈ suffixes s ↔ u <:+ s := by
  induction s with
  | nil => simp [suffixes]
  | cons c s ih => rw [suffixes, List.mem_cons, ih, List.suffix_cons_iff]

theorem mem_directorySuffixes {s u : List Char} :
    u ∈ directorySuffixes s ↔ ('/' :: u) <:+ s := by
  induction s with
  | nil => simp [directorySuffixes]
  | cons c s ih =>
    rw [List.suffix_cons_iff, ← ih, List.cons.injEq]
    by_cases hc : c = '/'
    · simp [directorySuffixes, hc]
    · simp [directorySuffixes, Ne.symm hc]

theorem mem_starts {s u : List Char} : u ∈ starts s ↔ u = s ∨ ('/' :: u) <:+ s ∨ u = [] := by
  rw [starts, List.cons_append, List.mem_cons, List.mem_append, mem_directorySuffixes,
    List.mem_singleton]

theorem suffix_of_mem_starts {s u : List Char} (h : u ∈ starts s) : u <:+ s := by
  rcases mem_starts.1 h with rfl | h | rfl
  · exact List.suffix_refl _
  · exact (List.suffix_cons '/' u).trans h
  · exact List.nil_suffix

theorem mem_starts_trans {s u v : List Char} (hu : u ∈ starts s) (hv : v ∈ starts u) :
    v ∈ starts s := by
  rcases mem_starts.1 hv with rfl | hv | rfl
  · exact hu
  · exact mem_starts.2 (.inr (.inl (hv.trans (suffix_of_mem_starts hu))))
  · exact mem_starts.2 (.inr (.inr rfl))

theorem matches_token {token : Token} (htext : token ≠ .anyText) (hdirs : token ≠ .anyDirs)
    {rest : List Token} {s : List Char} :
    Matches (token :: rest) s ↔ ∃ c u, s = c :: u ∧ token.accepts c = true ∧ Matches rest u := by
  cases token <;> first | rfl | contradiction

/-! ## accepted texts are matched -/

theorem matchTokens_token_nil {token : Token} (htext : token ≠ .anyText) (hdirs : token ≠ .anyDirs)
    (rest : List Token) : matchTokens (token :: rest) [] = .exhausted := by
  cases token <;> first | rfl | contradiction

theorem matchTokens_token_cons {token : Token} (htext : token ≠ .anyText)
    (hdirs : token ≠ .anyDirs) (rest : List Token) (c : Char) (s : List Char) :
    matchTokens (token :: rest) (c :: s) =
      if token.accepts c then matchTokens rest s else .refused := by
  cases token <;> first | rfl | contradiction

theorem tryEach_accepted {verdict : List Char → Verdict} {l : List (List Char)}
    (h : tryEach verdict l = .accepted) : ∃ u ∈ l, verdict u = .accepted := by
  induction l with
  | nil => cases h
  | cons u l ih =>
    rw [tryEach] at h
    split at h
    · obtain ⟨v, hv, haccepted⟩ := ih h
      exact ⟨v, List.mem_cons_of_mem _ hv, haccepted⟩
    · exact ⟨u, List.mem_cons_self, h⟩

theorem matches_of_matchTokens {tokens : List Token} {s : List Char}
    (h : matchTokens tokens s = .accepted) : Matches tokens s := by
  induction tokens generalizing s with
  | nil =>
    cases s with
    | nil => rfl
    | cons c s => cases h
  | cons token rest ih =>
    by_cases htext : token = .anyText
    · subst htext
      rw [matchTokens] at h
      obtain ⟨u, hu, haccepted⟩ := tryEach_accepted h
      exact ⟨u, mem_suffixes.1 hu, ih haccepted⟩
    · by_cases hdirs : token = .anyDirs
      · subst hdirs
        rw [matchTokens] at h
        obtain ⟨u, hu, haccepted⟩ := tryEach_accepted h
        exact ⟨u, hu, ih haccepted⟩
      · rw [matches_token htext hdirs]
        cases s with
        | nil =>
          rw [matchTokens_token_nil htext hdirs] at h
          cases h
        | cons c s =>
          rw [matchTokens_token_cons htext hdirs] at h
          split at h
          · next haccepts => exact ⟨c, s, rfl, haccepts, ih h⟩
          · cases h

/-! ## matched texts are accepted -/

/-- Having recursive wildcards only behind a slash or another one of them, and
in first place if that is allowed. -/
def dirsAllowed : Bool → List Token → Bool
  | _, [] => true
  | allowed, .anyDirs :: rest => allowed && dirsAllowed true rest
  | _, token :: rest => dirsAllowed (token == .char '/') rest

theorem dirsAllowed_token {token : Token} (hdirs : token ≠ .anyDirs) (allowed : Bool)
    (rest : List Token) :
    dirsAllowed allowed (token :: rest) = dirsAllowed (token == .char '/') rest := by
  cases token <;> first | rfl | contradiction

theorem dirsAllowed_mono {allowed : Bool} {tokens : List Token}
    (h : dirsAllowed allowed tokens = true) : dirsAllowed true tokens = true := by
  cases tokens with
  | nil => rfl
  | cons token rest =>
    by_cases hdirs : token = .anyDirs
    · subst hdirs
      rw [dirsAllowed, Bool.and_eq_true] at h
      rw [dirsAllowed, h.2, Bool.and_true]
    · rwa [dirsAllowed_token hdirs] at h ⊢

/-- If no attempt that gives up hides an accepted one, an accepted one is found. -/
theorem tryEach_of_accepted {verdict : List Char → Verdict} {behind : List Char → List Char → Prop}
    {l : List (List Char)} (hl : l.Pairwise behind)
    (hexhausted : ∀ u v, behind u v → verdict u = .exhausted → verdict v ≠ .accepted)
    {u : List Char} (hu : u ∈ l) (h : verdict u = .accepted) : tryEach verdict l = .accepted := by
  induction l with
  | nil => cases hu
  | cons v l ih =>
    rw [List.pairwise_cons] at hl
    rw [tryEach]
    rcases List.mem_cons.1 hu with rfl | hu
    · rw [h]
    · cases hv : verdict v with
      | accepted => rfl
      | refused => exact ih hl.2 hu
      | exhausted => exact absurd h (hexhausted v u (hl.1 u hu) hv)

theorem pairwise_suffixes (s : List Char) : (suffixes s).Pairwise fun u v => v <:+ u := by
  induction s with
  | nil => simp [suffixes]
  | cons c s ih =>
    rw [suffixes, List.pairwise_cons]
    exact ⟨fun u hu => (mem_suffixes.1 hu).trans (List.suffix_cons c s), ih⟩

theorem pairwise_directorySuffixes (s : List Char) :
    (directorySuffixes s).Pairwise fun u v => ('/' :: v) <:+ u := by
  induction s with
  | nil => simp [directorySuffixes]
  | cons c s ih =>
    by_cases hc : c = '/'
    · subst hc
      rw [directorySuffixes, List.pairwise_cons]
      exact ⟨fun v hv => mem_directorySuffixes.1 hv, ih⟩
    · simpa [directorySuffixes, hc] using ih

theorem pairwise_starts (s : List Char) : (starts s).Pairwise fun u v => v ∈ starts u := by
  have hinner := (pairwise_directorySuffixes s).imp fun {u v} h =>
    (mem_starts.2 (.inr (.inl h)) : v ∈ starts u)
  rw [starts, List.cons_append, List.pairwise_cons, List.pairwise_append]
  refine ⟨fun u hu => by rw [starts]; exact List.mem_cons_of_mem _ hu, hinner, by simp, ?_⟩
  rintro u - v hv
  rw [List.mem_singleton.1 hv]
  exact mem_starts.2 (.inr (.inr rfl))

/-- The three things to know of a matcher: it accepts what the tokens match, and
where it gives up there is nothing to be matched further behind. -/
structure Decides (tokens : List Token) : Prop where
  accepted : dirsAllowed true tokens = true → ∀ s, Matches tokens s →
    matchTokens tokens s = .accepted
  exhausted : dirsAllowed false tokens = true → ∀ s, matchTokens tokens s = .exhausted →
    ∀ u, u <:+ s → ¬ Matches tokens u
  exhausted_starts : dirsAllowed true tokens = true → ∀ s, matchTokens tokens s = .exhausted →
    ∀ u ∈ starts s, ¬ Matches tokens u

theorem decides_nil : Decides [] := by
  have hfinal : ∀ s, matchTokens [] s ≠ .exhausted := fun s => by
    cases s <;> exact Verdict.noConfusion
  refine ⟨?_, fun _ s h => absurd h (hfinal s), fun _ s h => absurd h (hfinal s)⟩
  rintro - s rfl
  rfl

theorem decides_anyText {rest : List Token} (ih : Decides rest) : Decides (.anyText :: rest) := by
  have haccepted : dirsAllowed false rest = true → ∀ s, Matches (.anyText :: rest) s →
      matchTokens (.anyText :: rest) s = .accepted := by
    rintro hrest s ⟨u, hu, hmatches⟩
    rw [matchTokens]
    refine tryEach_of_accepted (pairwise_suffixes s) ?_ (mem_suffixes.2 hu)
      (ih.accepted (dirsAllowed_mono hrest) u hmatches)
    exact fun v w hw hv hw' => ih.exhausted hrest v hv w hw (matches_of_matchTokens hw')
  -- what it matches at the end of a text it matches in front of that as well
  have hexhausted : dirsAllowed false rest = true → ∀ s,
      matchTokens (.anyText :: rest) s = .exhausted →
        ∀ u, u <:+ s → ¬ Matches (.anyText :: rest) u := by
    rintro hrest s h u hu ⟨v, hv, hmatches⟩
    rw [haccepted hrest s ⟨v, hv.trans hu, hmatches⟩] at h
    cases h
  exact ⟨haccepted, hexhausted, fun hrest s h u hu =>
    hexhausted hrest s h u (suffix_of_mem_starts hu)⟩

theorem decides_anyDirs {rest : List Token} (ih : Decides rest) : Decides (.anyDirs :: rest) := by
  have haccepted : dirsAllowed true (.anyDirs :: rest) = true → ∀ s,
      Matches (.anyDirs :: rest) s → matchTokens (.anyDirs :: rest) s = .accepted := by
    rintro hrest s ⟨u, hu, hmatches⟩
    have hrest' : dirsAllowed true rest = true := hrest
    rw [matchTokens]
    refine tryEach_of_accepted (pairwise_starts s) ?_ hu (ih.accepted hrest' u hmatches)
    exact fun v w hw hv hw' => ih.exhausted_starts hrest' v hv w hw (matches_of_matchTokens hw')
  refine ⟨haccepted, fun h => absurd h Bool.false_ne_true, ?_⟩
  rintro hrest s h u hu ⟨v, hv, hmatches⟩
  rw [haccepted hrest s ⟨v, mem_starts_trans hu hv, hmatches⟩] at h
  cases h

theorem decides_token {token : Token} (htext : token ≠ .anyText) (hdirs : token ≠ .anyDirs)
    {rest : List Token} (ih : Decides rest) : Decides (token :: rest) := by
  have hallowed : ∀ allowed,
      dirsAllowed allowed (token :: rest) = dirsAllowed (token == .char '/') rest :=
    fun allowed => dirsAllowed_token hdirs allowed rest
  have hexhausted : dirsAllowed (token == .char '/') rest = true → ∀ s,
      matchTokens (token :: rest) s = .exhausted → ∀ u, u <:+ s → ¬ Matches (token :: rest) u := by
    rintro hrest s h u hu hmatches
    obtain ⟨d, v, rfl, hd, hv⟩ := (matches_token htext hdirs).1 hmatches
    cases s with
    | nil => cases List.suffix_nil.1 hu
    | cons c s =>
      rw [matchTokens_token_cons htext hdirs] at h
      split at h
      · by_cases hslash : token = .char '/'
        · subst hslash
          obtain rfl : '/' = d := eq_of_beq hd
          refine ih.exhausted_starts hrest s h v (mem_starts.2 ?_) hv
          exact (List.suffix_cons_iff.1 hu).imp (fun he => (List.cons.inj he).2) .inl
        · rw [beq_eq_false_iff_ne.2 hslash] at hrest
          refine ih.exhausted hrest s h v ?_ hv
          rcases List.suffix_cons_iff.1 hu with he | hsuffix
          · exact (List.cons.inj he).2 ▸ List.suffix_refl _
          · exact (List.suffix_cons d v).trans hsuffix
      · cases h
  refine ⟨?_, ?_, ?_⟩
  · intro hrest s hmatches
    obtain ⟨c, u, rfl, hc, hu⟩ := (matches_token htext hdirs).1 hmatches
    rw [matchTokens_token_cons htext hdirs, if_pos hc]
    exact ih.accepted (dirsAllowed_mono (hallowed true ▸ hrest)) u hu
  · exact fun hrest => hexhausted (hallowed false ▸ hrest)
  · exact fun hrest s h u hu => hexhausted (hallowed true ▸ hrest) s h u (suffix_of_mem_starts hu)

theorem decides (tokens : List Token) : Decides tokens := by
  induction tokens with
  | nil => exact decides_nil
  | cons token rest ih =>
    by_cases htext : token = .anyText
    · exact htext ▸ decides_anyText ih
    · by_cases hdirs : token = .anyDirs
      · exact hdirs ▸ decides_anyDirs ih
      · exact decides_token htext hdirs ih

/-- The matcher accepts the texts that tokens match. -/
theorem matchTokens_eq_accepted {tokens : List Token} (h : dirsAllowed true tokens = true)
    {s : List Char} : matchTokens tokens s = .accepted ↔ Matches tokens s :=
  ⟨matches_of_matchTokens, (decides tokens).accepted h s⟩

end ResourceAudit.Glob
