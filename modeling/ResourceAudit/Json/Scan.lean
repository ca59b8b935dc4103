import ResourceAudit.Text.Cut
import ResourceAudit.Text.Digit
import ResourceAudit.Decimal.Shortest
import ResourceAudit.Json.Fault

/-!
# ResourceAudit.Json.Scan

Reading JSON from the front of a text: words, strings, numbers, and values that
are read over.  Every reader gives what it read and the text after it.  What is
read over is checked less than what is read: its numbers may be out of range
and its escapes may name no character.
-/

namespace ResourceAudit.Json

open ResourceAudit.Text

/-- A fault at the front of a text. -/
def faultAt {α : Type} (cause : Cause) (rest : List Char) : Except Fault α :=
  .error ⟨cause, byteLength rest⟩

/-- A fault at the byte that a text begins with, which counts as read. -/
def faultPast {α : Type} (cause : Cause) (rest : List Char) : Except Fault α :=
  .error ⟨cause, byteLength rest - 1⟩

def isJsonSpace (c : Char) : Bool := c == ' ' || c == '\n' || c == '\t' || c == '\r'

/-- The text from its first character on that is not white space. -/
def skipSpace (s : List Char) : List Char := s.dropWhile isJsonSpace

/-- The text after the given letters. -/
def expectLetters : List Char → List Char → Except Fault (List Char)
  | [], s => .ok s
  | _ :: _, [] => faultAt .endInValue []
  | letter :: letters, c :: rest =>
    if c = letter then expectLetters letters rest else faultPast .noWord (c :: rest)

/-! ## strings -/

/-- The number in the four bytes of a hexadecimal escape. -/
def takeHex (s : List Char) : Except Fault (Nat × List Char) :=
  if byteLength s < 4 then faultAt .endInString []
  else match digitsValue? 16 (s.take 4) with
    | some value => .ok (value, s.drop 4)
    | none => .error ⟨.invalidEscape, byteLength s - 4⟩

/-- The character a letter behind a backslash stands for. -/
def escapedChar? : Char → Option Char
  | '"' => some '"'
  | '\\' => some '\\'
  | '/' => some '/'
  | 'b' => some '\x08'
  | 'f' => some '\x0c'
  | 'n' => some '\n'
  | 'r' => some '\r'
  | 't' => some '\t'
  | _ => none

/-- The character of the hexadecimal escape whose digits begin at the front.  A
character beyond `0xFFFF` takes two escapes. -/
def takeUnicode (s : List Char) : Except Fault (Char × List Char) := do
  let (first, rest) ← takeHex s
  if 0xDC00 ≤ first ∧ first ≤ 0xDFFF then faultAt .loneSurrogate rest
  else if first < 0xD800 ∨ 0xDBFF < first then return (Char.ofNat first, rest)
  else match rest with
    | '\\' :: 'u' :: digits =>
      let (second, rest) ← takeHex digits
      if second < 0xDC00 ∨ 0xDFFF < second then faultAt .loneSurrogate rest
      else return (Char.ofNat ((first - 0xD800) * 1024 + (second - 0xDC00) + 0x10000), rest)
    | '\\' :: [] => faultAt .endInString []
    | '\\' :: other => faultPast .endOfHexEscape other
    | [] => faultAt .endInString []
    | other => faultPast .endOfHexEscape other

/-- The characters of a string after its opening quote, each step reading at
least one character. -/
def takeStringFrom : Nat → List Char → Except Fault (List Char × List Char)
  | _, [] => faultAt .endInString []
  | 0, s => .ok ([], s)
  | _, '"' :: rest => .ok ([], rest)
  | fuel + 1, '\\' :: rest =>
    match rest with
    | [] => faultAt .endInString []
    | 'u' :: digits => do
      let (c, rest) ← takeUnicode digits
      let (others, rest) ← takeStringFrom fuel rest
      return (c :: others, rest)
    | letter :: rest' =>
      match escapedChar? letter with
      | some c => do
        let (others, rest) ← takeStringFrom fuel rest'
        return (c :: others, rest)
      | none => faultPast .invalidEscape rest
  | fuel + 1, c :: rest =>
    if c.toNat < 0x20 then faultPast .controlCharacter (c :: rest)
    else do
      let (others, rest) ← takeStringFrom fuel rest
      return (c :: others, rest)

/-- The string whose opening quote stands before the text. -/
def takeString (s : List Char) : Except Fault (String × List Char) := do
  let (chars, rest) ← takeStringFrom s.length s
  return (.ofList chars, rest)

/-- Reads over a string after its opening quote. -/
def skipStringFrom : Nat → List Char → Except Fault (List Char)
  | _, [] => faultAt .endInString []
  | 0, s => .ok s
  | _, '"' :: rest => .ok rest
  | fuel + 1, '\\' :: rest =>
    match rest with
    | [] => faultAt .endInString []
    | 'u' :: digits => do
      let (_, rest) ← takeHex digits
      skipStringFrom fuel rest
    | letter :: rest' =>
      if (escapedChar? letter).isSome then skipStringFrom fuel rest'
      else faultPast .invalidEscape rest
  | fuel + 1, c :: rest =>
    if c.toNat < 0x20 then faultAt .controlCharacter (c :: rest) else skipStringFrom fuel rest

def skipString (s : List Char) : Except Fault (List Char) := skipStringFrom s.length s

/-! ## numbers -/

/-- The text after the digits at its front. -/
def skipDigits (s : List Char) : List Char := s.dropWhile Char.isDigit

/-- Reads over an exponent from behind its letter. -/
def skipExponent (s : List Char) : Except Fault (List Char) :=
  let s := match s with
    | '+' :: rest | '-' :: rest => rest
    | _ => s
  match s with
  | c :: rest => if c.isDigit then .ok (skipDigits rest) else faultPast .invalidNumber s
  | [] => faultAt .invalidNumber []

/-- Reads over a number without its sign. -/
def skipNumber (s : List Char) : Except Fault (List Char) :=
  let afterDigits (s : List Char) : Except Fault (List Char) :=
    match s with
    | 'e' :: rest | 'E' :: rest => skipExponent rest
    | _ => .ok s
  let afterInteger (s : List Char) : Except Fault (List Char) :=
    match s with
    | '.' :: rest =>
      if rest.head?.any Char.isDigit then afterDigits (skipDigits rest)
      else faultPast .invalidNumber rest
    | _ => afterDigits s
  match s with
  | '0' :: rest =>
    if rest.head?.any Char.isDigit then faultPast .invalidNumber rest else afterInteger rest
  | c :: rest =>
    if c.isDigit then afterInteger (skipDigits rest) else faultPast .invalidNumber s
  | [] => faultAt .invalidNumber []

/-- The integer that the digits at the front go on from `value`, the number of
these digits, and the text after them; the integer stays one of 64 bits. -/
def sumDigits (value count : Nat) : List Char → Nat × Nat × List Char
  | [] => (value, count, [])
  | c :: rest =>
    let next := value * 10 + (c.toNat - '0'.toNat)
    if c.isDigit && next < UInt64.size then sumDigits next (count + 1) rest
    else (value, count, c :: rest)

/-- The floating point number `significand * 10 ^ exponent`, none if it is out
of range.  It is computed by one multiplication or division if the exponent is
small enough. -/
def scaleFloat : Nat → Float → Int → Option Float
  | 0, f, _ => some f
  | fuel + 1, f, exponent =>
    if exponent.natAbs ≤ 308 then
      let power := Float.ofScientific 1 false exponent.natAbs
      if 0 ≤ exponent then
        if (f * power).isInf then none else some (f * power)
      else some (f / power)
    else if f == 0 then some f
    else if 0 ≤ exponent then none
    else scaleFloat fuel (f / Float.ofScientific 1 false 308) (exponent + 308)

/-- The floating point number with the given sign, significand and exponent,
read before `rest`. -/
def floatBefore (negative : Bool) (significand : Nat) (exponent : Int) (rest : List Char) :
    Except Fault (Float × List Char) :=
  match scaleFloat (exponent.natAbs / 308 + 2) significand.toUInt64.toFloat exponent with
  | some f => .ok (if negative then -f else f, rest)
  | none => faultAt .numberRange rest

/-- The exponent that digits go on from `value`, which stays below half the size of
a 32-bit word. -/
def sumExponent (value : Nat) : List Char → Except (List Char) (Nat × List Char)
  | [] => .ok (value, [])
  | c :: rest =>
    let next := value * 10 + (c.toNat - '0'.toNat)
    if !c.isDigit then .ok (value, c :: rest)
    else if next < UInt32.size / 2 then sumExponent next rest
    else .error rest

/-- Reads an exponent from behind its letter. -/
def takeExponent (negative : Bool) (significand : Nat) (start : Int) (s : List Char) :
    Except Fault (Float × List Char) :=
  let (below, s) := match s with
    | '+' :: rest => (false, rest)
    | '-' :: rest => (true, rest)
    | _ => (false, s)
  match s with
  | [] => faultAt .endInValue []
  | c :: rest =>
    if !c.isDigit then faultPast .invalidNumber s
    else match sumExponent (c.toNat - '0'.toNat) rest with
      | .ok (value, rest) =>
        floatBefore negative significand (if below then start - value else start + value) rest
      | .error rest =>
        if significand ≠ 0 ∧ !below then faultAt .numberRange rest
        else .ok (if negative then -0.0 else 0.0, skipDigits rest)

/-- Reads what follows the digits of a number that is not an integer. -/
def takeFloatEnd (negative : Bool) (significand : Nat) (exponent : Int) (s : List Char) :
    Except Fault (Float × List Char) :=
  match s with
  | 'e' :: rest | 'E' :: rest => takeExponent negative significand exponent rest
  | _ => floatBefore negative significand exponent s

/-- Reads the digits behind the point of a number. -/
def takeDecimals (negative : Bool) (significand : Nat) (start : Int) (s : List Char) :
    Except Fault (Float × List Char) :=
  let (value, count, rest) := sumDigits significand 0 s
  if rest.head?.any Char.isDigit then
    takeFloatEnd negative value (start - count) (skipDigits rest)
  else if count = 0 then
    if rest.isEmpty then faultAt .endInValue [] else faultPast .invalidNumber rest
  else takeFloatEnd negative value (start - count) rest

/-- A number as it is told apart from other values. -/
inductive Number where
  | integer (value : Int)
  | float (value : Float)

/-- Reads a number after its sign. -/
def takeNumber (negative : Bool) (s : List Char) : Except Fault (Number × List Char) := do
  let fraction (significand : Nat) (exponent : Int) (rest : List Char) :
      Except Fault (Number × List Char) := do
    let (f, rest) ← match rest with
      | '.' :: decimals => takeDecimals negative significand exponent decimals
      | _ => takeFloatEnd negative significand exponent rest
    return (.float f, rest)
  let afterInteger (value : Nat) (rest : List Char) : Except Fault (Number × List Char) :=
    match rest with
    | '.' :: _ | 'e' :: _ | 'E' :: _ => fraction value 0 rest
    | _ =>
      if !negative then .ok (.integer value, rest)
      else if value = 0 ∨ UInt64.size / 2 < value then .ok (.float (-value.toUInt64.toFloat), rest)
      else .ok (.integer (-value), rest)
  match s with
  | [] => faultAt .endInValue []
  | '0' :: rest =>
    if rest.head?.any Char.isDigit then faultPast .invalidNumber rest else afterInteger 0 rest
  | c :: _ =>
    if !c.isDigit then faultPast .invalidNumber s
    else
      let (value, _, rest) := sumDigits 0 0 s
      if rest.head?.any Char.isDigit then
        fraction value (rest.takeWhile Char.isDigit).length (skipDigits rest)
      else afterInteger value rest

/-- A floating point number in messages: with a point and without an exponent
when its magnitude lies between `10 ^ (-5)` and `10 ^ 16`. -/
def floatText (f : Float) : String :=
  let sign := if UInt64.size / 2 ≤ f.toBits.toNat then "-" else ""
  let bits := f.abs.toBits
  if bits = 0 then sign ++ "0.0"
  else
    let (value, e) := (Decimal.Binary.ofBits bits).shortest
    let digits := Nat.toDigits 10 value
    let point := digits.length + e
    let zeros (n : Int) : List Char := List.replicate n.toNat '0'
    let body : List Char :=
      if 0 ≤ e ∧ point ≤ 16 then digits ++ zeros e ++ ['.', '0']
      else if 0 < point ∧ point ≤ 16 then
        digits.take point.toNat ++ ['.'] ++ digits.drop point.toNat
      else if -5 < point ∧ point ≤ 0 then ['0', '.'] ++ zeros (-point) ++ digits
      else
        let fraction := if digits.length = 1 then [] else '.' :: digits.drop 1
        digits.take 1 ++ fraction ++ ['e'] ++ (toString (point - 1)).toList
    sign ++ .ofList body

/-! ## values that are read over -/

inductive Enclosure where
  | list
  | object
  deriving DecidableEq, Repr

mutual
/-- Reads over a value inside the given lists and objects, and then over the
rest of these, innermost first. -/
def skipValue : Nat → List Enclosure → List Char → Except Fault (List Char)
  | 0, _, s => .ok s
  | fuel + 1, outer, s =>
    match skipSpace s with
    | [] => faultAt .endInValue []
    | 'n' :: rest => do skipAfter fuel outer (← expectLetters "ull".toList rest)
    | 't' :: rest => do skipAfter fuel outer (← expectLetters "rue".toList rest)
    | 'f' :: rest => do skipAfter fuel outer (← expectLetters "alse".toList rest)
    | '"' :: rest => do skipAfter fuel outer (← skipString rest)
    | '-' :: rest => do skipAfter fuel outer (← skipNumber rest)
    | '[' :: rest =>
      match skipSpace rest with
      | [] => faultAt .endInList []
      | ']' :: rest => skipAfter fuel outer rest
      | rest => skipValue fuel (.list :: outer) rest
    | '{' :: rest =>
      match skipSpace rest with
      | [] => faultAt .endInObject []
      | '}' :: rest => skipAfter fuel outer rest
      | rest => skipKey fuel outer rest
    | c :: rest =>
      if c.isDigit then do skipAfter fuel outer (← skipNumber (c :: rest))
      else faultPast .noValue (c :: rest)

/-- Reads over a key of an object and what follows it. -/
def skipKey : Nat → List Enclosure → List Char → Except Fault (List Char)
  | 0, _, s => .ok s
  | fuel + 1, outer, s =>
    match skipSpace s with
    | [] => faultAt .endInObject []
    | '"' :: rest => do
      let rest ← skipString rest
      match skipSpace rest with
      | [] => faultAt .endInObject []
      | ':' :: rest => skipValue fuel (.object :: outer) rest
      | other => faultPast .noColon other
    | other => faultPast .noKey other

/-- Reads over what follows a value. -/
def skipAfter : Nat → List Enclosure → List Char → Except Fault (List Char)
  | 0, _, s => .ok s
  | _, [], s => .ok s
  | fuel + 1, .list :: outer, s =>
    match skipSpace s with
    | [] => faultAt .endInList []
    | ',' :: rest => skipValue fuel (.list :: outer) rest
    | ']' :: rest => skipAfter fuel outer rest
    | other => faultPast .noListComma other
  | fuel + 1, .object :: outer, s =>
    match skipSpace s with
    | [] => faultAt .endInObject []
    | ',' :: rest => skipKey fuel outer rest
    | '}' :: rest => skipAfter fuel outer rest
    | other => faultPast .noObjectComma other
end

end ResourceAudit.Json
