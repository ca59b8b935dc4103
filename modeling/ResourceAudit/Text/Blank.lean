/-!
# ResourceAudit.Text.Blank

White space.  `isBlank` is the Unicode property `White_Space`, the class every
trimming and every test for blankness in this library goes by; what core calls
`Char.isWhitespace` is a part of it.
-/

namespace ResourceAudit.Text

/-- The characters with the Unicode property `White_Space`. -/
def isBlank (c : Char) : Bool :=
  let n := c.toNat
  (0x09 ≤ n && n ≤ 0x0D) || n == 0x20 || n == 0x85 || n == 0xA0 || n == 0x1680 ||
    (0x2000 ≤ n && n ≤ 0x200A) || n == 0x2028 || n == 0x2029 || n == 0x202F || n == 0x205F ||
    n == 0x3000

/-! ## trimming -/

/-- The text from its first character that is not white space. -/
def trimStart (s : List Char) : List Char := s.dropWhile isBlank

/-- The text up to its last character that is not white space. -/
def trimEnd (s : List Char) : List Char := (s.reverse.dropWhile isBlank).reverse

/-- The text between its first and its last character that is not white space. -/
def trim (s : List Char) : List Char := trimEnd (trimStart s)

/-- Whether the text holds white space only. -/
def isBlankText (s : List Char) : Bool := s.all isBlank

/-- The text without any of its white space. -/
def squeeze (s : List Char) : List Char := s.filter (!isBlank ·)

@[simp] theorem trim_nil : trim [] = [] := rfl

end ResourceAudit.Text
