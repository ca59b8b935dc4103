/-!
# ResourceAudit.Glob.Pattern

Wildcard patterns.  `?` stands for one character, `*` for any text, `[…]` and
`[!…]` for one character of a class, and `**` as a whole component for any
number of directories.  None of them stops at a slash or at a leading dot.
-/

namespace ResourceAudit.Glob

/-- A part of a character class; ends of a range belong to it. -/
structure Range where
  low : Char
  high : Char
  deriving DecidableEq, Repr

def Range.contains (r : Range) (c : Char) : Bool := r.low ≤ c && c ≤ r.high

inductive Token where
  | char (c : Char)
  | anyChar
  | anyText
  /-- Any number of whole directories. -/
  | anyDirs
  | anyOf (ranges : List Range)
  | noneOf (ranges : List Range)
  deriving DecidableEq, Repr

structure Pattern where
  tokens : List Token
  deriving DecidableEq, Repr

/-! ## faults -/

inductive FaultKind where
  | wildcards
  | recursiveWildcards
  | range
  deriving DecidableEq, Repr

/-- Why a text is no pattern, and after how many characters. -/
structure Fault where
  position : Nat
  kind : FaultKind
  deriving DecidableEq, Repr

def FaultKind.message : FaultKind → String
  | .wildcards => "wildcards are either regular \x60*\x60 or recursive \x60**\x60"
  | .recursiveWildcards => "recursive wildcards must form a single path component"
  | .range => "invalid range pattern"

def Fault.message (f : Fault) : String :=
  s!"Pattern syntax error near position {f.position}: {f.kind.message}"

/-- Whether a text has wildcards that make it a pattern where it could also be a
plain path. -/
def hasWildcard (s : String) : Bool := s.any fun c => c == '*' || c == '?'

/-! ## reading -/

/-- The ranges of a class as written between its brackets. -/
def rangesOf : List Char → List Range
  | low :: '-' :: high :: rest => ⟨low, high⟩ :: rangesOf rest
  | c :: rest => ⟨c, c⟩ :: rangesOf rest
  | [] => []

/-- The class whose text begins at the front, and the text after its bracket.
A bracket in first place belongs to the class. -/
def takeClass (s : List Char) : Option (Token × List Char) :=
  let cut (first : Char) (rest : List Char) : Option (List Range × List Char) :=
    let inside := rest.takeWhile (· != ']')
    match rest.drop inside.length with
    | _ :: after => some (rangesOf (first :: inside), after)
    | [] => none
  match s with
  | '!' :: first :: rest => (cut first rest).map fun (ranges, after) => (.noneOf ranges, after)
  | '!' :: [] => none
  | first :: rest => (cut first rest).map fun (ranges, after) => (.anyOf ranges, after)
  | [] => none

/-- Reads the tokens of a pattern, given how many characters stand before, the
last of them, and the last token. -/
def readTokens (fuel position : Nat) (before : Option Char) (read : List Token) (s : List Char) :
    Except Fault (List Token) :=
  match fuel, s with
  | 0, _ => .ok read.reverse
  | _, [] => .ok read.reverse
  | fuel + 1, '?' :: rest => readTokens fuel (position + 1) (some '?') (.anyChar :: read) rest
  | fuel + 1, '*' :: rest =>
    let stars := (rest.takeWhile (· == '*')).length + 1
    let after := rest.drop (stars - 1)
    if 2 < stars then .error ⟨position + 2, .wildcards⟩
    else if stars = 1 then readTokens fuel (position + 1) (some '*') (.anyText :: read) after
    else if before != none && before != some '/' then .error ⟨position - 1, .recursiveWildcards⟩
    else
      let read' := if 1 < read.length && read.head? == some .anyDirs then read else .anyDirs :: read
      match after with
      | [] => .ok read'.reverse
      | '/' :: rest' => readTokens fuel (position + 3) (some '/') read' rest'
      | _ => .error ⟨position + 2, .recursiveWildcards⟩
  | fuel + 1, '[' :: rest =>
    match takeClass rest with
    | none => .error ⟨position, .range⟩
    | some (token, after) =>
      readTokens fuel (position + 1 + rest.length - after.length) (some ']') (token :: read) after
  | fuel + 1, c :: rest => readTokens fuel (position + 1) (some c) (.char c :: read) rest

/-- The pattern a text writes. -/
def Pattern.ofText (s : String) : Except Fault Pattern :=
  (readTokens s.length 0 none [] s.toList).map Pattern.mk

/-! ## matching -/

/-- How the match of a pattern came out. -/
inductive Verdict where
  | accepted
  /-- The text does not match from here on; a later place may. -/
  | refused
  /-- The text has ended too early, so no later place can match. -/
  | exhausted
  deriving DecidableEq, Repr

/-- The first verdict that is final, trying one text after the other. -/
def tryEach (verdict : List Char → Verdict) : List (List Char) → Verdict
  | [] => .refused
  | s :: rest =>
    match verdict s with
    | .refused => tryEach verdict rest
    | final => final

/-- The ends of a text, the longest first. -/
def suffixes : List Char → List (List Char)
  | [] => [[]]
  | c :: rest => (c :: rest) :: suffixes rest

/-- The ends of a text behind a slash. -/
def directorySuffixes : List Char → List (List Char)
  | [] => []
  | '/' :: rest => rest :: directorySuffixes rest
  | _ :: rest => directorySuffixes rest

/-- Whether a token for a single character accepts one. -/
def Token.accepts : Token → Char → Bool
  | .char expected, c => expected == c
  | .anyChar, _ => true
  | .anyOf ranges, c => ranges.any (·.contains c)
  | .noneOf ranges, c => !ranges.any (·.contains c)
  | .anyText, _ | .anyDirs, _ => false

/-- Matches tokens against a whole text. -/
def matchTokens : List Token → List Char → Verdict
  | [], [] => .accepted
  | [], _ :: _ => .refused
  | .anyText :: rest, s => tryEach (matchTokens rest) (suffixes s)
  | .anyDirs :: rest, s => tryEach (matchTokens rest) (s :: directorySuffixes s ++ [[]])
  | _ :: _, [] => .exhausted
  | token :: rest, c :: s => if token.accepts c then matchTokens rest s else .refused

/-- Whether a pattern matches a whole text. -/
def Pattern.matches (p : Pattern) (s : String) : Bool := matchTokens p.tokens s.toList == .accepted

/-- The character a token stands for, if it stands for one only. -/
def Token.char? : Token → Option Char
  | .char c => some c
  | _ => none

/-- The text of a pattern without wildcards. -/
def Pattern.literal? (p : Pattern) : Option String := (p.tokens.mapM Token.char?).map String.ofList

/-- Whether a pattern for one component has the recursive wildcard. -/
def Pattern.isRecursive (p : Pattern) : Bool := p.tokens.contains .anyDirs

end ResourceAudit.Glob
