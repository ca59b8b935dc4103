import ResourceAudit.Text.Lines

/-!
# ResourceAudit.Version

Semantic versions and the order of version names.  Versions go by their release
numbers, then by their pre-release identifiers, then by their build metadata; a
name that is no version comes before every version, and such names go by their
text.
-/

namespace ResourceAudit

open ResourceAudit.Text

/-! ## identifiers -/

/-- A version as it is written: three numbers, and dotted identifiers. -/
structure Version where
  major : Nat
  minor : Nat
  patch : Nat
  /-- The identifiers behind the hyphen, none for a release. -/
  pre : List (List Char)
  /-- The identifiers behind the plus sign. -/
  build : List (List Char)
  deriving DecidableEq, Repr

def isIdentifierChar (c : Char) : Bool := c.isAlphanum || c == '-'

def isNumeric (s : List Char) : Bool := s.all Char.isDigit

/-- The number that digits name. -/
def decimal (digits : List Char) : Nat :=
  digits.foldl (fun value c => value * 10 + (c.toNat - '0'.toNat)) 0

/-! ## reading -/

/-- A release number: digits without a superfluous zero, below the size of a 64-bit word. -/
def readNumber? (s : List Char) : Option Nat :=
  if s.isEmpty || !isNumeric s || (s.head? == some '0' && 1 < s.length) then none
  else if decimal s < UInt64.size then some (decimal s) else none

/-- Dotted identifiers, none of them empty.  Where `strict` holds, a number has
no superfluous zero. -/
def readIdentifiers? (strict : Bool) (s : List Char) : Option (List (List Char)) :=
  let parts := fields (· == '.') s
  let isValid (part : List Char) : Bool :=
    !part.isEmpty && part.all isIdentifierChar &&
      !(strict && isNumeric part && part.head? == some '0' && 1 < part.length)
  if parts.all isValid then some parts else none

/-- The identifiers behind a separator, if there is one; `after` holds the text
from the separator on. -/
def readTail? (strict : Bool) (after : List Char) : Option (List (List Char)) :=
  match after with
  | [] => some []
  | _ :: s => readIdentifiers? strict s

/-- The version that a text writes. -/
def Version.ofText? (s : List Char) : Option Version := do
  let release := s.takeWhile fun c => c != '-' && c != '+'
  let tail := s.drop release.length
  let preText := tail.takeWhile (· != '+')
  let pre ← readTail? true preText
  let build ← readTail? false (tail.drop preText.length)
  match fields (· == '.') release with
  | [major, minor, patch] =>
    return ⟨← readNumber? major, ← readNumber? minor, ← readNumber? patch, pre, build⟩
  | _ => none

/-! ## order -/

/-- Texts are compared by their characters. -/
def compareText (s t : List Char) : Ordering := compareOfLessAndEq s t

/-- Numbers without superfluous zeros are compared by length, then by text. -/
def compareDigits (s t : List Char) : Ordering :=
  (compare s.length t.length).then (compareText s t)

/-- Compares lists element by element; of two lists of which one begins with
the other, the shorter one comes first. -/
def compareLists {α : Type} (order : α → α → Ordering) : List α → List α → Ordering
  | [], [] => .eq
  | [], _ :: _ => .lt
  | _ :: _, [] => .gt
  | a :: as, b :: bs => (order a b).then (compareLists order as bs)

/-- Of two identifiers, a number comes before a word. -/
def compareIdentifiers (numbers : List Char → List Char → Ordering) (s t : List Char) : Ordering :=
  match isNumeric s, isNumeric t with
  | true, true => numbers s t
  | true, false => .lt
  | false, true => .gt
  | false, false => compareText s t

/-- Pre-releases are compared by their identifiers, and come before releases. -/
def comparePre : List (List Char) → List (List Char) → Ordering
  | [], [] => .eq
  | [], _ :: _ => .gt
  | _ :: _, [] => .lt
  | s, t => compareLists (compareIdentifiers compareDigits) s t

/-- Numbers in build metadata are compared by their value, then by how many
zeros stand before it. -/
def compareBuildNumbers (s t : List Char) : Ordering :=
  (compareDigits (s.dropWhile (· == '0')) (t.dropWhile (· == '0'))).then
    (compare s.length t.length)

/-- Build metadata is compared by its identifiers; none comes first. -/
def compareBuild (s t : List (List Char)) : Ordering :=
  compareLists (compareIdentifiers compareBuildNumbers) s t

def Version.compare (v w : Version) : Ordering :=
  (Ord.compare v.major w.major).then <| (Ord.compare v.minor w.minor).then <|
    (Ord.compare v.patch w.patch).then <| (comparePre v.pre w.pre).then <|
      compareBuild v.build w.build

/-- The order of the names of versions. -/
def compareVersionNames (a b : String) : Ordering :=
  match Version.ofText? a.toList, Version.ofText? b.toList with
  | some v, some w => v.compare w
  | some _, none => .gt
  | none, some _ => .lt
  | none, none => compareText a.toList b.toList

end ResourceAudit
