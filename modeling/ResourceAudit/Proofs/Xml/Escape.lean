import ResourceAudit.Proofs.Text.Trim
import ResourceAudit.Proofs.Xml.Markup
import Mathlib.Data.List.Induction

/-!
# ResourceAudit.Proofs.Xml.Escape

What escaping does not touch.  White space is never escaped and no reference
holds any, so that a text may be trimmed before or after it is escaped
(`trim_escape`); an escaped text holds no mark of quotation, and a line feed
only where the text holds one.  So a text can be the value of an attribute once
it is escaped (`WrittenAttribute.escaped`).
-/

namespace ResourceAudit.Xml

open ResourceAudit.Text

/-! ## white space -/

theorem escape_append (s t : List Char) : escape (s ++ t) = escape s ++ escape t :=
  List.flatMap_append

theorem escapeChar_of_isBlank {c : Char} (h : isBlank c = true) : escapeChar c = [c] := by
  unfold escapeChar
  split
  all_goals first | rfl | exact absurd h (by decide)

/-- White space is not escaped. -/
theorem escape_of_isBlankText {s : List Char} (h : isBlankText s = true) : escape s = s := by
  induction s with
  | nil => rfl
  | cons c rest ih =>
    have hall := List.forall_mem_cons.1 (isBlankText_iff.1 h)
    rw [escape, List.flatMap_cons, escapeChar_of_isBlank hall.1, ← escape,
      ih (isBlankText_iff.2 hall.2)]
    rfl

/-- What a character is escaped to holds no white space if the character is
none. -/
theorem not_isBlank_of_mem_escapeChar {c : Char} (h : isBlank c = false) :
    ∀ d ∈ escapeChar c, isBlank d = false := by
  have hall : (escapeChar c).all (!isBlank ·) = true := by
    unfold escapeChar
    split
    all_goals first | rfl | simpa using h
  simpa using hall

theorem isBlankText_escapeChar {c : Char} (h : isBlank c = false) :
    isBlankText (escapeChar c) = false := by
  unfold escapeChar
  split
  all_goals first | decide | simpa [isBlankText] using h

theorem trimStart_escape (s : List Char) : trimStart (escape s) = escape (trimStart s) := by
  induction s with
  | nil => rfl
  | cons c rest ih =>
    have hcons : escape (c :: rest) = escapeChar c ++ escape rest := List.flatMap_cons
    cases hc : isBlank c with
    | true =>
      have hblank : isBlankText [c] = true := isBlankText_iff.2 (by simpa using hc)
      have hrest : trimStart (c :: rest) = trimStart rest := trimStart_append_of_blank hblank rest
      rw [hcons, escapeChar_of_isBlank hc, trimStart_append_of_blank hblank, ih, hrest]
    | false =>
      have hrest : trimStart (c :: rest) = c :: rest := List.dropWhile_cons_of_neg (by simp [hc])
      rw [hcons, trimStart_append (isBlankText_escapeChar hc),
        trimStart_eq_self (not_isBlank_of_mem_escapeChar hc), hrest, hcons]

theorem trimEnd_escape (s : List Char) : trimEnd (escape s) = escape (trimEnd s) := by
  induction s using List.reverseRecOn with
  | nil => rfl
  | append_singleton rest c ih =>
    have hsingle : escape [c] = escapeChar c := List.append_nil _
    have hlast : escape (rest ++ [c]) = escape rest ++ escapeChar c := by
      rw [escape_append, hsingle]
    cases hc : isBlank c with
    | true =>
      have hblank : isBlankText [c] = true := isBlankText_iff.2 (by simpa using hc)
      rw [hlast, escapeChar_of_isBlank hc, trimEnd_append_of_blank hblank, ih,
        trimEnd_append_of_blank hblank]
    | false =>
      have hblank : isBlankText [c] = false := by simp [isBlankText, hc]
      have hself : trimEnd [c] = [c] := trimEnd_eq_self (by simpa using hc)
      rw [hlast, trimEnd_append (isBlankText_escapeChar hc),
        trimEnd_eq_self (not_isBlank_of_mem_escapeChar hc), trimEnd_append hblank, hself, hlast]

/-- It makes no difference whether a text is trimmed before it is escaped. -/
theorem trim_escape (s : List Char) : trim (escape s) = escape (trim s) := by
  rw [trim, trimStart_escape, trimEnd_escape, ← trim]

/-! ## marks -/

/-- An escaped text can stand between marks of quotation. -/
theorem quote_not_mem_escape (s : List Char) : '"' ∉ escape s := by
  intro h
  obtain ⟨c, -, hmem⟩ := List.mem_flatMap.1 h
  unfold escapeChar at hmem
  split at hmem
  all_goals simp at hmem
  exact absurd hmem.symm (by assumption)

theorem lineFeed_mem_escape {s : List Char} (h : '\n' ∈ escape s) : '\n' ∈ s := by
  obtain ⟨c, hc, hmem⟩ := List.mem_flatMap.1 h
  unfold escapeChar at hmem
  split at hmem
  all_goals simp at hmem
  rwa [hmem]

/-! ## attributes -/

theorem doubleQuote_isQuote : '"' = '"' ∨ '"' = '\'' := .inl rfl

theorem quote_not_mem_written_spell (s : List Char) : '"' ∉ written (spell s) := by
  rw [written_spell]
  exact quote_not_mem_escape s

/-- An attribute behind a space, with a text escaped as its value. -/
def WrittenAttribute.escaped (key : Name) (s : List Char) : WrittenAttribute where
  before := .ofList [' '] rfl
  before_ne_nil := List.cons_ne_nil _ _
  key := key
  beforeEquals := .none
  afterEquals := .none
  quote := '"'
  quote_eq := doubleQuote_isQuote
  value := spell s
  quote_not_mem := quote_not_mem_written_spell s

end ResourceAudit.Xml
