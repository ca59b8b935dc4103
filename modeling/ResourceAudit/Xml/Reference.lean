import ResourceAudit.Text.Cut
import ResourceAudit.Text.Digit

/-!
# ResourceAudit.Xml.Reference

Character and entity references.  `escape` writes the five characters that
markup reserves as references; `expand` replaces every reference of a text by
what it stands for, or says which one it cannot read.  Positions count bytes.
-/

namespace ResourceAudit.Xml

open ResourceAudit.Text

/-! ## writing -/

/-- A character as it is written in text and in attribute values. -/
def escapeChar : Char → List Char
  | '<' => "&lt;".toList
  | '>' => "&gt;".toList
  | '\'' => "&apos;".toList
  | '&' => "&amp;".toList
  | '"' => "&quot;".toList
  | c => [c]

/-- A text with its reserved characters written as references. -/
def escape (s : List Char) : List Char := s.flatMap escapeChar

/-! ## faults -/

/-- Why digits name no number. -/
inductive NumberFault where
  | empty
  | invalidDigit
  | tooLarge
  deriving DecidableEq, Repr

def NumberFault.message : NumberFault → String
  | .empty => "cannot parse integer from empty string"
  | .invalidDigit => "invalid digit found in string"
  | .tooLarge => "number too large to fit in target type"

/-- Why a numeric reference names no character. -/
inductive CharacterFault where
  | signed
  | number (fault : NumberFault)
  | null
  | noCodepoint (code : Nat)
  deriving DecidableEq, Repr

def CharacterFault.message : CharacterFault → String
  | .signed => "unexpected number sign"
  | .number fault => fault.message
  | .null => "0x0 character is not permitted in XML"
  | .noCodepoint code => s!"\x60{code}\x60 is not a valid codepoint"

/-- Why a reference cannot be read. -/
inductive ReferenceFault where
  /-- An ampersand at `start` in a text of `size` bytes that no semicolon
  follows before the next ampersand. -/
  | unterminated (start size : Nat)
  /-- A name between two positions that stands for nothing. -/
  | unrecognized (start stop : Nat) (name : String)
  | character (fault : CharacterFault)
  deriving DecidableEq, Repr

def ReferenceFault.message : ReferenceFault → String
  | .unterminated start size =>
    s!"Error while escaping character at range {start}..{size}: Cannot find ';' after '&'"
  | .unrecognized start stop name => s!"at {start}..{stop}: unrecognized entity \x60{name}\x60"
  | .character fault => "invalid character reference: " ++ fault.message

/-! ## reading -/

/-- The number that digits name, after those that named `value`; it fits a 32-bit
word. -/
def readDigits (base value : Nat) : List Char → Except NumberFault Nat
  | [] => .ok value
  | c :: rest =>
    match digitValue? base c with
    | none => .error .invalidDigit
    | some digit =>
      if value * base + digit < UInt32.size then readDigits base (value * base + digit) rest
      else .error .tooLarge

/-- The number that a numeric reference names. -/
def readCode (base : Nat) : List Char → Except CharacterFault Nat
  | [] => .error (.number .empty)
  | '+' :: _ | '-' :: _ => .error .signed
  | digits => (readDigits base 0 digits).mapError .number

/-- The character that the text of a reference behind its number sign names. -/
def readCharacter (s : List Char) : Except CharacterFault Char := do
  let code ← match s with
    | 'x' :: digits => readCode 16 digits
    | digits => readCode 10 digits
  if code = 0 then throw .null
  if code.isValidChar then return Char.ofNat code else throw (.noCodepoint code)

/-- The characters that have a name. -/
def entity? (name : List Char) : Option Char :=
  match String.ofList name with
  | "lt" => some '<'
  | "gt" => some '>'
  | "amp" => some '&'
  | "apos" => some '\''
  | "quot" => some '"'
  | _ => none

/-- What the reference at `start` with the given text stands for. -/
def resolve (start : Nat) (name : List Char) : Except ReferenceFault Char :=
  match name with
  | '#' :: number => (readCharacter number).mapError .character
  | _ =>
    match entity? name with
    | some c => .ok c
    | none => .error (.unrecognized (start + 1) (start + 1 + byteLength name) (.ofList name))

/-- Expands a text of `size` bytes from the byte `offset` on. -/
def expandFrom (size offset : Nat) : List Char → Except ReferenceFault (List Char)
  | [] => .ok []
  | '&' :: rest =>
    let name := rest.takeWhile fun c => c != '&' && c != ';'
    match _h : rest.drop name.length with
    | ';' :: after => do
      let c ← resolve offset name
      let others ← expandFrom size (offset + byteLength name + 2) after
      return c :: others
    | _ => .error (.unterminated offset size)
  | c :: rest => (expandFrom size (offset + c.utf8Size) rest).map (c :: ·)
termination_by s => s.length
decreasing_by
  · have := congrArg List.length _h
    simp only [List.length_drop, List.length_cons] at this ⊢
    omega
  · simp

/-- A text with every reference replaced by what it stands for. -/
def expand (s : List Char) : Except ReferenceFault (List Char) := expandFrom (byteLength s) 0 s

end ResourceAudit.Xml
