import ResourceAudit.Text.Digit
import ResourceAudit.Text.Printable

/-!
# ResourceAudit.Text.Quoted

A text in double quotes with everything escaped that could be taken for
something else.
-/

namespace ResourceAudit.Text

/-- A character inside a quoted text. -/
def quotedChar : Char → List Char
  | '\x00' => ['\\', '0']
  | '\t' => ['\\', 't']
  | '\r' => ['\\', 'r']
  | '\n' => ['\\', 'n']
  | '"' => ['\\', '"']
  | '\\' => ['\\', '\\']
  | c => if isPrintable c then [c] else ['\\', 'u', '{'] ++ hex c.toNat ++ ['}']

/-- A text in quotes. -/
def quoted (s : String) : String := .ofList ('"' :: s.toList.flatMap quotedChar ++ ['"'])

end ResourceAudit.Text
