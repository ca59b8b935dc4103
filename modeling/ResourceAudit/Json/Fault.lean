/-!
# ResourceAudit.Json.Fault

Why a JSON text cannot be read, and where.  A reader consumes its text from the
front, so a position is the number of bytes that are left; `Fault.message` turns
it into a line and a column, both counted in bytes.
-/

namespace ResourceAudit.Json

inductive Cause where
  | endInValue
  | endInList
  | endInObject
  | endInString
  | noValue
  | noWord
  | noColon
  | noListComma
  | noObjectComma
  | noKey
  | trailingComma
  | trailingCharacters
  | invalidNumber
  | numberRange
  | invalidEscape
  | loneSurrogate
  | endOfHexEscape
  | controlCharacter
  /-- A value of one kind where another is wanted. -/
  | mistyped (found expected : String)
  | repeatedField (name : String)
  deriving DecidableEq, Repr

def Cause.message : Cause → String
  | .endInValue => "EOF while parsing a value"
  | .endInList => "EOF while parsing a list"
  | .endInObject => "EOF while parsing an object"
  | .endInString => "EOF while parsing a string"
  | .noValue => "expected value"
  | .noWord => "expected ident"
  | .noColon => "expected \x60:\x60"
  | .noListComma => "expected \x60,\x60 or \x60]\x60"
  | .noObjectComma => "expected \x60,\x60 or \x60\x7d\x60"
  | .noKey => "key must be a string"
  | .trailingComma => "trailing comma"
  | .trailingCharacters => "trailing characters"
  | .invalidNumber => "invalid number"
  | .numberRange => "number out of range"
  | .invalidEscape => "invalid escape"
  | .loneSurrogate => "lone leading surrogate in hex escape"
  | .endOfHexEscape => "unexpected end of hex escape"
  | .controlCharacter => "control character (\\u0000-\\u001F) found while parsing a string"
  | .mistyped found expected => s!"invalid type: {found}, expected {expected}"
  | .repeatedField name => s!"duplicate field \x60{name}\x60"

/-- A cause, and how many bytes of the text are left after its position. -/
structure Fault where
  cause : Cause
  left : Nat
  deriving DecidableEq, Repr

/-- The line and column after so many bytes of a text, from a line and column
on. -/
def locate (line column : Nat) : List Char → Nat → Nat × Nat
  | [], _ => (line, column)
  | _, 0 => (line, column)
  | '\n' :: rest, n + 1 => locate (line + 1) 0 rest n
  | c :: rest, n => locate line (column + min c.utf8Size n) rest (n - c.utf8Size)

end ResourceAudit.Json
