/-!
# ResourceAudit.Text.Cut

Looking for a pattern in a text, and measuring text in the bytes of its UTF-8
encoding, which is what positions in messages count.
-/

namespace ResourceAudit.Text

/-! ## patterns -/

/-- The text before the first occurrence of a pattern, and the text after it. -/
def cutAt (pattern : List Char) : List Char → Option (List Char × List Char)
  | [] => if pattern.isEmpty then some ([], []) else none
  | c :: rest =>
    if pattern.isPrefixOf (c :: rest) then some ([], (c :: rest).drop pattern.length)
    else (cutAt pattern rest).map fun (before, after) => (c :: before, after)

theorem cutAt_eq_append {pattern s before after : List Char}
    (h : cutAt pattern s = some (before, after)) : s = before ++ pattern ++ after := by
  induction s generalizing before with
  | nil =>
    rw [cutAt] at h
    split at h
    · next hp => simp_all
    · simp at h
  | cons c rest ih =>
    rw [cutAt] at h
    split at h
    · next hp =>
      simp only [Option.some.injEq, Prod.mk.injEq] at h
      obtain ⟨rfl, rfl⟩ := h
      obtain ⟨t, ht⟩ := List.isPrefixOf_iff_prefix.1 hp
      simp [← ht]
    · simp only [Option.map_eq_some_iff] at h
      obtain ⟨⟨b, a⟩, hb, he⟩ := h
      simp only [Prod.mk.injEq] at he
      obtain ⟨rfl, rfl⟩ := he
      simp [ih hb]

theorem cutAt_length_le {pattern s before after : List Char}
    (h : cutAt pattern s = some (before, after)) : after.length ≤ s.length := by
  rw [cutAt_eq_append h, List.length_append]
  omega

/-- The text after a pattern it begins with. -/
def afterPattern (pattern s : List Char) : Option (List Char) :=
  if pattern.isPrefixOf s then some (s.drop pattern.length) else none

/-- Whether a text holds a pattern. -/
def holds (pattern s : List Char) : Bool := (cutAt pattern s).isSome

/-! ## bytes -/

/-- The number of bytes of a text in UTF-8. -/
def byteLength : List Char → Nat
  | [] => 0
  | c :: rest => c.utf8Size + byteLength rest

/-- The text without its first so many bytes, if these end between two of its
characters. -/
def dropBytes : Nat → List Char → Option (List Char)
  | 0, s => some s
  | _, [] => none
  | n, c :: rest => if c.utf8Size ≤ n then dropBytes (n - c.utf8Size) rest else none

@[simp] theorem byteLength_append (s t : List Char) :
    byteLength (s ++ t) = byteLength s + byteLength t := by
  induction s with
  | nil => simp [byteLength]
  | cons c rest ih => simp [byteLength, ih, Nat.add_assoc]

end ResourceAudit.Text
