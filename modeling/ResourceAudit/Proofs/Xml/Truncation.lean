import ResourceAudit.Proofs.Xml.Forest

/-!
# ResourceAudit.Proofs.Xml.Truncation

Markup that breaks off.  Markup is read without a look at the text behind it
(`nextMarkup_extend`), so what is left of it cannot be read when it is cut
anywhere inside (`cutMarkup_of_prefix`).  Between two pieces of markup elements
are open: `openAfter` counts them.
-/

namespace ResourceAudit.Xml

open ResourceAudit.Text

/-! ## markup and the text behind it -/

theorem prepend_extend {c : Char} {cut cut' : Option (List Char × List Char)}
    {inside after t : List Char} (h : prepend c cut = some (inside, after))
    (hcut : ∀ before, cut = some (before, after) → cut' = some (before, after ++ t)) :
    prepend c cut' = some (inside, after ++ t) := by
  unfold prepend at h
  split at h
  · next before rest =>
    simp only [Option.some.injEq, Prod.mk.injEq] at h
    obtain ⟨rfl, rfl⟩ := h
    rw [hcut before rfl, prepend]
  · simp at h

theorem cutTag_extend {quote : Option Char} {s inside after : List Char}
    (h : cutTag quote s = some (inside, after)) (t : List Char) :
    cutTag quote (s ++ t) = some (inside, after ++ t) := by
  induction s generalizing quote inside with
  | nil => simp [cutTag] at h
  | cons c rest ih =>
    cases quote with
    | some q =>
      rw [cutTag] at h
      rw [List.cons_append, cutTag]
      exact prepend_extend h fun before hb => ih hb
    | none =>
      rw [cutTag] at h
      rw [List.cons_append, cutTag]
      split at h
      · next hc =>
        simp only [Option.some.injEq, Prod.mk.injEq] at h
        rw [if_pos hc, ← h.1, ← h.2]
      · next hc =>
        rw [if_neg hc]
        exact prepend_extend h fun before hb => ih hb

theorem cutDoctype_extend {depth : Nat} {s inside after : List Char}
    (h : cutDoctype depth s = some (inside, after)) (t : List Char) :
    cutDoctype depth (s ++ t) = some (inside, after ++ t) := by
  induction s generalizing depth inside with
  | nil => simp [cutDoctype] at h
  | cons c rest ih =>
    rw [cutDoctype] at h
    rw [List.cons_append, cutDoctype]
    split at h
    · next hlt =>
      rw [if_pos hlt]
      exact prepend_extend h fun before hb => ih hb
    · next hlt =>
      rw [if_neg hlt]
      split at h
      · next hgt =>
        rw [if_pos hgt]
        split at h
        · next hdepth =>
          simp only [Option.some.injEq, Prod.mk.injEq] at h
          rw [if_pos hdepth, ← h.1, ← h.2]
        · next hdepth =>
          rw [if_neg hdepth]
          exact prepend_extend h fun before hb => ih hb
      · next hgt =>
        rw [if_neg hgt]
        exact prepend_extend h fun before hb => ih hb

theorem nextMarkup_question {c : Char} (hc : c ≠ '>') (s : List Char) :
    nextMarkup ('?' :: c :: s) =
      match cutAt "?>".toList (c :: s) with
      | some (_, after) => .ok (.event .other, after)
      | none => .error .unclosedInstruction := by
  rw [nextMarkup]
  all_goals first | rfl | exact fun t ht => hc (List.cons.inj ht).1

/-- What markup is read does not depend on the text behind it. -/
theorem nextMarkup_extend {s after : List Char} {piece : Piece}
    (h : nextMarkup s = .ok (piece, after)) (t : List Char) :
    nextMarkup (s ++ t) = .ok (piece, after ++ t) := by
  unfold nextMarkup at h
  split at h
  all_goals (try dsimp only at h)
  all_goals (repeat' split at h)
  all_goals simp only [Except.ok.injEq, Prod.mk.injEq, reduceCtorEq] at h
  all_goals obtain ⟨rfl, rfl⟩ := h
  · next inside _ _ _ hcut =>
    simp only [List.cons_append, nextMarkup, cutAt_extend hcut]
  · next rest hlead _ _ _ hcut =>
    have hpre := List.isPrefixOf_iff_prefix.1 hlead
    have hlong : "CDATA[".toList.isPrefixOf (rest ++ t) = true :=
      List.isPrefixOf_iff_prefix.2 (hpre.trans (List.prefix_append rest t))
    have hdrop : (rest ++ t).drop "CDATA[".toList.length = rest.drop "CDATA[".toList.length ++ t :=
      List.drop_append_of_le_length hpre.length_le
    simp only [List.cons_append, nextMarkup, if_pos hlong, hdrop, cutAt_extend hcut]
  · next rest hcomment hhyphen hbracket hd _ inside _ hcut hlead hblank =>
    obtain ⟨d, ds, rfl⟩ : ∃ d ds, rest = d :: ds := by
      cases rest with
      | nil => simp at hd
      | cons d ds => exact ⟨d, ds, rfl⟩
    have hcut' := cutDoctype_extend hcut t
    rw [List.cons_append] at hcut'
    rw [List.cons_append, List.cons_append, nextMarkup]
    · simp only [List.head?_cons] at hd ⊢
      simp only [hd, hcut', hlead, if_true, if_neg hblank]
    · exact fun u hu => hhyphen ds (by rw [(List.cons.inj hu).1])
    · exact fun u hu => hhyphen ds (by rw [(List.cons.inj hu).1])
    · exact fun u hu => hbracket ds (by rw [(List.cons.inj hu).1])
  · next rest hgt _ _ _ hcut =>
    cases rest with
    | nil => simp [cutAt] at hcut
    | cons c cs =>
      have hc : c ≠ '>' := by rintro rfl; exact hgt cs rfl
      have hcut' := cutAt_extend hcut t
      rw [List.cons_append] at hcut'
      rw [List.cons_append, List.cons_append, nextMarkup_question hc, hcut']
  · next rest _ _ _ hcut =>
    simp only [List.cons_append, nextMarkup, cutTag_extend hcut]
  · next hnil _ _ _ hbang _ hask hslash _ _ _ hcut =>
    cases s with
    | nil => exact absurd rfl hnil
    | cons c cs =>
      have hc : c ∉ "!?/".toList := by
        intro hmem
        have hmark : c = '!' ∨ c = '?' ∨ c = '/' := by simpa using hmem
        rcases hmark with rfl | rfl | rfl
        · exact hbang cs rfl
        · exact hask cs rfl
        · exact hslash cs rfl
      have hcut' := cutTag_extend hcut t
      rw [List.cons_append] at hcut' ⊢
      rw [nextMarkup_element hc, hcut']

/-! ## markup that breaks off -/

/-- What is left of a text that begins with the given markup. -/
inductive CutMarkup (markup s : List Char) : List Char → Prop where
  /-- Nothing is left. -/
  | before : CutMarkup markup s []
  /-- The markup itself is cut. -/
  | inside {front : List Char} {fault : MarkupFault} (h : nextMarkup front = .error fault) :
    CutMarkup markup s ('<' :: front)
  /-- The text behind the markup is cut, if anything. -/
  | behind {rest : List Char} (h : rest <+: s) : CutMarkup markup s ('<' :: (markup ++ rest))

/-- The front of markup cannot be read as markup: what is read there is read of the
whole, and would end before the end of it. -/
theorem cutMarkup_of_prefix {markup s u : List Char} {piece : Piece}
    (hm : ∀ rest, nextMarkup (markup ++ rest) = .ok (piece, rest))
    (h : u <+: '<' :: (markup ++ s)) : CutMarkup markup s u := by
  cases u with
  | nil => exact .before
  | cons c front =>
    rw [List.cons_prefix_cons] at h
    obtain ⟨rfl, h⟩ := h
    rcases prefix_append_cases h with ⟨missing, rfl⟩ | ⟨rest, rfl, hrest⟩
    · cases hread : nextMarkup front with
      | error fault => exact .inside hread
      | ok read =>
        have hwhole := (hm []).symm.trans
          ((List.append_nil (front ++ missing)).symm ▸ nextMarkup_extend hread missing)
        obtain rfl : missing = [] := by
          simp only [Except.ok.injEq, Prod.mk.injEq] at hwhole
          exact (List.append_eq_nil_iff.1 hwhole.2.symm).2
        have hall : CutMarkup front s ('<' :: (front ++ [])) := .behind List.nil_prefix
        rwa [List.append_nil] at hall ⊢
    · exact .behind hrest

theorem readFrom_of_error {front : List Char} {fault : MarkupFault}
    (h : nextMarkup front = .error fault) (opened : List (List Char)) :
    readFrom opened ('<' :: front) = ⟨[], some fault⟩ := by
  rw [readFrom_bracket, readMarkup, h]

/-! ## open elements -/

/-- The number of elements that are open behind events, with so many open before
them; none if more are closed than there are. -/
def openAfter (opened : Nat) : List Event → Option Nat
  | [] => some opened
  | .opened _ :: rest => openAfter (opened + 1) rest
  | .closed _ :: rest => if opened = 0 then none else openAfter (opened - 1) rest
  | .empty _ :: rest => openAfter opened rest
  | .text _ :: rest => openAfter opened rest
  | .cdata _ :: rest => openAfter opened rest
  | .other :: rest => openAfter opened rest

theorem openAfter_append (n : Nat) (events others : List Event) :
    openAfter n (events ++ others) = (openAfter n events).bind (openAfter · others) := by
  induction events generalizing n with
  | nil => rfl
  | cons event rest ih =>
    cases event with
    | closed name =>
      rw [List.cons_append, openAfter, openAfter]
      split
      · rfl
      · exact ih (n - 1)
    | _ => exact ih _

/-- Character data opens and closes nothing. -/
theorem openAfter_prependText (n : Nat) (raw : List Char) (d : Document) :
    openAfter n (d.prependText raw).events = openAfter n d.events := by
  unfold Document.prependText
  split
  · rfl
  · split
    · next h => rw [h]; rfl
    · rfl

theorem openAfter_precede (n : Nat) (events : List Event) (d : Document) :
    openAfter n (d.precede events).events = (openAfter n events).bind (openAfter · d.events) := by
  induction events generalizing n with
  | nil => rfl
  | cons event rest ih =>
    rw [Document.precede_cons]
    cases event with
    | text raw =>
      rw [Document.prepend, openAfter_prependText]
      exact ih n
    | closed name =>
      change openAfter n (.closed name :: (d.precede rest).events) = _
      rw [openAfter, openAfter]
      split
      · rfl
      · exact ih (n - 1)
    | _ => exact ih _

/-- A forest closes all that it opens. -/
theorem Forest.openAfter_events (f : Forest) (n : Nat) : openAfter n f.events = some n := by
  induction f generalizing n with
  | nil => rfl
  | text ss next ih => exact ih n
  | cdata s next ih => exact ih n
  | aside a next ih => exact ih n
  | empty tag next ih => exact ih n
  | element tag content gap next ihContent ihNext =>
    rw [events, List.cons_append, openAfter, openAfter_append, ihContent, Option.bind_some,
      openAfter, if_neg (Nat.succ_ne_zero n)]
    exact ihNext n

end ResourceAudit.Xml
