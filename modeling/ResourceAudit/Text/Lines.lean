/-!
# ResourceAudit.Text.Lines

A text cut into pieces: into lines, and at a separating character.  A line
feed ends a line, together with a carriage return right before it; a line that
nothing ends is a line too unless it is empty.
-/

namespace ResourceAudit.Text

/-! ## lines -/

/-- The lines of a text.  A carriage return that no line feed follows is part
of its line. -/
def lines : List Char → List (List Char)
  | [] => []
  | '\n' :: rest => [] :: lines rest
  | '\r' :: '\n' :: rest => [] :: lines rest
  | c :: rest =>
    match lines rest with
    | [] => [[c]]
    | line :: others => (c :: line) :: others

/-! ## fields -/

/-- The pieces of a text between the characters that satisfy `p`: always one
more than there are such characters. -/
def fields (p : Char → Bool) : List Char → List (List Char)
  | [] => [[]]
  | c :: rest =>
    if p c then [] :: fields p rest
    else match fields p rest with
      | [] => [[c]]
      | piece :: pieces => (c :: piece) :: pieces

/-- The pieces written one after the other with `separator` between them. -/
def join (separator : List Char) : List (List Char) → List Char
  | [] => []
  | [piece] => piece
  | piece :: pieces => piece ++ separator ++ join separator pieces

theorem fields_ne_nil (p : Char → Bool) (s : List Char) : fields p s ≠ [] := by
  cases s with
  | nil => simp [fields]
  | cons c rest =>
    rw [fields]
    split
    · simp
    · split <;> simp

end ResourceAudit.Text
