import ResourceAudit.Config
import ResourceAudit.Json.Scan
import ResourceAudit.Text.Quoted

/-!
# ResourceAudit.Config.Reading

Reading a configuration from JSON: an object, whose unknown fields are read
over, or a list of the fields in order.  A field may be missing but not be there
twice.
-/

namespace ResourceAudit

open ResourceAudit.Json ResourceAudit.Text

/-! ## values of the wrong kind -/

def numberText : Number → String
  | .integer value => s!"integer \x60{value}\x60"
  | .float value => s!"floating point \x60{floatText value}\x60"

/-- The fault of a value of a kind that is not expected; a value that cannot be
read at all is a fault of its own. -/
def mistyped {α : Type} (expected : String) (s : List Char) : Except Fault α :=
  let found (what : String) (rest : List Char) : Except Fault α :=
    faultAt (.mistyped what expected) rest
  match s with
  | 'n' :: rest => do found "null" (← expectLetters "ull".toList rest)
  | 't' :: rest => do found "boolean \x60true\x60" (← expectLetters "rue".toList rest)
  | 'f' :: rest => do found "boolean \x60false\x60" (← expectLetters "alse".toList rest)
  | '"' :: rest => do
    let (text, rest) ← takeString rest
    found ("string " ++ quoted text) rest
  | '[' :: _ => found "sequence" s
  | '{' :: _ => found "map" s
  | '-' :: rest => do
    let (number, rest) ← takeNumber true rest
    found (numberText number) rest
  | c :: _ =>
    if c.isDigit then do
      let (number, rest) ← takeNumber false s
      found (numberText number) rest
    else faultPast .noValue s
  | [] => faultAt .endInValue []

/-! ## fields -/

/-- Reads a string. -/
def takeText (s : List Char) : Except Fault (String × List Char) :=
  match skipSpace s with
  | '"' :: rest => takeString rest
  | s => mistyped "a string" s

/-- Reads a string or `null`. -/
def takeOptionalText (s : List Char) : Except Fault (Option String × List Char) :=
  match skipSpace s with
  | 'n' :: rest => do return (none, ← expectLetters "ull".toList rest)
  | s => do
    let (text, rest) ← takeText s
    return (some text, rest)

/-- The text of the next element of a list, none at the end of the list. -/
def nextElement (first : Bool) (s : List Char) : Except Fault (Option (List Char)) :=
  match skipSpace s with
  | [] => faultAt .endInList []
  | ']' :: _ => .ok none
  | ',' :: rest =>
    if first then .ok (some (',' :: rest))
    else match skipSpace rest with
      | [] => faultAt .endInValue []
      | ']' :: rest => faultPast .trailingComma (']' :: rest)
      | rest => .ok (some rest)
  | s => if first then .ok (some s) else faultPast .noListComma s

/-- Reads the strings of a list, each of which takes at least one character. -/
def takeElements : Nat → Bool → List Char → Except Fault (List String × List Char)
  | 0, _, s => .ok ([], s)
  | fuel + 1, first, s => do
    match ← nextElement first s with
    | none => return ([], (skipSpace s).drop 1)
    | some element =>
      let (text, rest) ← takeText element
      let (others, rest) ← takeElements fuel false rest
      return (text :: others, rest)

/-- Reads a list of strings. -/
def takeTexts (s : List Char) : Except Fault (List String × List Char) :=
  match skipSpace s with
  | '[' :: rest => takeElements (rest.length + 1) true rest
  | s => mistyped "a sequence" s

/-! ## lists -/

/-- Reads the end of a list that holds no more fields. -/
def endList (s : List Char) : Except Fault (List Char) :=
  match skipSpace s with
  | [] => faultAt .endInList []
  | ']' :: rest => .ok rest
  | ',' :: rest =>
    match skipSpace rest with
    | ']' :: rest => faultPast .trailingComma (']' :: rest)
    | s => faultPast .trailingCharacters s
  | s => faultPast .trailingCharacters s

/-- Reads a configuration from behind the bracket of a list. -/
def takeFieldList (s : List Char) : Except Fault (Config × List Char) := do
  match ← nextElement true s with
  | none => return (⟨none, []⟩, ← endList s)
  | some element =>
    let (path, rest) ← takeOptionalText element
    match ← nextElement false rest with
    | none => return (⟨path, []⟩, ← endList rest)
    | some element =>
      let (ignores, rest) ← takeTexts element
      return (⟨path, ignores⟩, ← endList rest)

/-! ## objects -/

/-- The fields that have been read. -/
structure Fields where
  path : Option (Option String)
  ignores : Option (List String)

/-- The text after the quote of the next key of an object, none at its end. -/
def nextKey (first : Bool) (s : List Char) : Except Fault (Option (List Char)) :=
  match skipSpace s with
  | [] => faultAt .endInObject []
  | '}' :: _ => .ok none
  | c :: rest =>
    if first then
      if c = '"' then .ok (some rest) else faultPast .noKey (c :: rest)
    else if c = ',' then
      match skipSpace rest with
      | [] => faultAt .endInValue []
      | '"' :: rest => .ok (some rest)
      | '}' :: rest => faultPast .trailingComma ('}' :: rest)
      | s => faultPast .noKey s
    else faultPast .noObjectComma (c :: rest)

/-- The fault of a field that is there twice, found behind its second key. -/
def repeated {α : Type} (name : String) (s : List Char) : Except Fault α :=
  match skipSpace s with
  | '}' :: rest => faultAt (.repeatedField name) rest
  | s => faultAt (.repeatedField name) s

/-- The text after the colon behind a key. -/
def afterColon (s : List Char) : Except Fault (List Char) :=
  match skipSpace s with
  | [] => faultAt .endInObject []
  | ':' :: rest => .ok rest
  | s => faultPast .noColon s

/-- Reads the fields of an object, each of which takes at least one character. -/
def takeFields : Nat → Bool → Fields → List Char → Except Fault (Fields × List Char)
  | 0, _, fields, s => .ok (fields, s)
  | fuel + 1, first, fields, s => do
    match ← nextKey first s with
    | none => return (fields, (skipSpace s).drop 1)
    | some key =>
      let (name, rest) ← takeString key
      match name with
      | "msbuildPath" =>
        if fields.path.isSome then repeated name rest
        else
          let (path, rest) ← takeOptionalText (← afterColon rest)
          takeFields fuel false ⟨some path, fields.ignores⟩ rest
      | "ignores" =>
        if fields.ignores.isSome then repeated name rest
        else
          let (ignores, rest) ← takeTexts (← afterColon rest)
          takeFields fuel false ⟨fields.path, some ignores⟩ rest
      | _ =>
        let value ← afterColon rest
        let rest ← skipValue (2 * value.length + 2) [] value
        takeFields fuel false fields rest

/-! ## texts -/

/-- Reads a configuration. -/
def takeConfig (s : List Char) : Except Fault (Config × List Char) :=
  match skipSpace s with
  | '[' :: rest => takeFieldList rest
  | '{' :: rest => do
    let (fields, rest) ← takeFields (rest.length + 1) true ⟨none, none⟩ rest
    return (⟨fields.path.join, fields.ignores.getD []⟩, rest)
  | s => mistyped "struct Config" s

/-- Why a text is no configuration, with the line and column. -/
structure Config.TextFault where
  cause : Cause
  line : Nat
  column : Nat
  deriving DecidableEq, Repr

def Config.TextFault.message (f : Config.TextFault) : String :=
  s!"{f.cause.message} at line {f.line} column {f.column}"

/-- The configuration that a text holds. -/
def Config.ofText (s : String) : Except Config.TextFault Config :=
  let chars := s.toList
  let read : Except Fault Config := do
    let (config, rest) ← takeConfig chars
    match skipSpace rest with
    | [] => return config
    | rest => faultPast .trailingCharacters rest
  read.mapError fun fault =>
    let (line, column) := locate 1 0 chars (byteLength chars - fault.left)
    ⟨fault.cause, line, column⟩

end ResourceAudit
