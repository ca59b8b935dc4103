/-!
# ResourceAudit.CSharp.Literal

Where a string literal of C# ends.  A literal is regular, verbatim (`@"…"`) or
raw (`"""…"""`), and each of them may be interpolated: then it has holes, code
in braces that may hold further literals.  `skipLiteral` keeps a stack of the
literals and holes that are open, innermost first.
-/

namespace ResourceAudit.CSharp

/-- How a string literal is written. -/
structure Quoting where
  /-- A doubled quote stands for one quote and a backslash for itself. -/
  verbatim : Bool
  /-- The number of quotes around a raw literal, zero for any other. -/
  rawQuotes : Nat
  /-- The number of braces that open a hole, zero if there are no holes. -/
  holeBraces : Nat
  deriving DecidableEq, Repr

/-- The number of times `c` stands at the front of a text. -/
def runLength (c : Char) (s : List Char) : Nat := (s.takeWhile (· == c)).length

/-- The literal that begins at the front of a text, and the text after its
opening quotes. -/
def openLiteral (s : List Char) : Option (Quoting × List Char) :=
  let lead := s.takeWhile (fun c => c == '$' || c == '@')
  let rest := s.drop lead.length
  let quotes := runLength '"' rest
  let dollars := lead.count '$'
  if quotes = 0 then none
  else if lead.contains '@' then
    some (⟨true, 0, min dollars 1⟩, rest.drop 1)
  else if 3 ≤ quotes then
    some (⟨false, quotes, dollars⟩, rest.drop quotes)
  else
    some (⟨false, 0, min dollars 1⟩, rest.drop 1)

/-- The text after a character literal, if one begins at the front. -/
def skipCharacter : List Char → Option (List Char)
  | '\'' :: '\\' :: _ :: rest => some ((rest.dropWhile (fun c => c != '\'' && c != '\n')).drop 1)
  | '\'' :: _ :: '\'' :: rest => some rest
  | _ => none

/-- A literal or a hole that has begun and not ended. -/
inductive Opened where
  | literal (quoting : Quoting)
  /-- A hole that so many braces close, with so many braces open inside it. -/
  | hole (braces depth : Nat)
  deriving Repr

/-- The text after the outermost of the open literals and holes.  The number
bounds the characters still to be read. -/
def skipOpened : Nat → List Opened → List Char → List Char
  | _, [], s => s
  | 0, _, s => s
  | _, _, [] => []
  | fuel + 1, .literal q :: outer, c :: rest =>
    let stay := skipOpened fuel (.literal q :: outer)
    if c == '"' then
      let quotes := runLength '"' rest + 1
      if 0 < q.rawQuotes then
        if q.rawQuotes ≤ quotes then skipOpened fuel outer (rest.drop (quotes - 1))
        else stay (rest.drop (quotes - 1))
      else if q.verbatim && 1 < quotes then stay (rest.drop 1)
      else skipOpened fuel outer rest
    else if c == '\\' && !q.verbatim && q.rawQuotes == 0 then stay (rest.drop 1)
    else if c == '{' && 0 < q.holeBraces then
      let braces := runLength '{' rest + 1
      let opens := if 0 < q.rawQuotes then decide (q.holeBraces ≤ braces) else braces % 2 == 1
      if opens then
        skipOpened fuel (.hole q.holeBraces 0 :: .literal q :: outer) (rest.drop (braces - 1))
      else stay (rest.drop (braces - 1))
    else stay rest
  | fuel + 1, .hole braces depth :: outer, c :: rest =>
    let stay := skipOpened fuel (.hole braces depth :: outer)
    match openLiteral (c :: rest) with
    | some (q, inside) => skipOpened fuel (.literal q :: .hole braces depth :: outer) inside
    | none =>
      match skipCharacter (c :: rest) with
      | some after => stay after
      | none =>
        if c == '{' then skipOpened fuel (.hole braces (depth + 1) :: outer) rest
        else if c == '}' then
          if depth == 0 then skipOpened fuel outer (rest.drop (braces - 1))
          else skipOpened fuel (.hole braces (depth - 1) :: outer) rest
        else stay rest

/-- The text after the literal that begins at the front, if one does. -/
def skipLiteral (s : List Char) : Option (List Char) :=
  (openLiteral s).map fun (q, inside) => skipOpened inside.length [.literal q] inside

end ResourceAudit.CSharp
