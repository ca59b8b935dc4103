import ResourceAudit.Text.Blank
import ResourceAudit.CSharp.Literal

/-!
# ResourceAudit.CSharp.Token

The tokens of C# source text.  White space separates tokens and is dropped;
comments and preprocessor lines are tokens, because documentation is read from
the comments before a declaration and a preprocessor line cuts them off.
-/

namespace ResourceAudit.CSharp

open ResourceAudit.Text

/-- A token, with its text as it stands in the source. -/
inductive Token where
  /-- An identifier or a keyword. -/
  | word (text : String)
  /-- A string, a character or a number; nothing depends on which. -/
  | literal
  /-- An operator or a separator. -/
  | mark (text : String)
  | comment (text : String)
  /-- A preprocessor line, by the word after its `#`. -/
  | directive (name : String)
  deriving DecidableEq, Repr

/-- The text of a token as part of a type. -/
def Token.text : Token → String
  | .word text | .mark text | .comment text => text
  | .literal | .directive _ => ""

/-- Whether a token has no meaning of its own between the others. -/
def Token.isTrivia : Token → Bool
  | .comment _ | .directive _ => true
  | _ => false

/-! ## character classes -/

/-- White space between tokens; a byte order mark counts. -/
def isSeparator (c : Char) : Bool := isBlank c || c == '\uFEFF'

def isLineEnd (c : Char) : Bool := c == '\n' || c == '\r'

/-- The characters of a word after its first. -/
def isWordChar (c : Char) : Bool :=
  c.isAlphanum || c == '_' || c == '\\' || (128 ≤ c.toNat && !isSeparator c)

/-- The characters a word begins with. -/
def isWordStart (c : Char) : Bool := (isWordChar c && !c.isDigit) || c == '@'

/-- The operators of more than one character that are not two shorter ones to
this library.  Angle brackets stay single, since they may close two lists. -/
def longMarks : List (List Char) :=
  ["=>", "==", "!=", "<=", ">=", "::", "->", "&&", "||", "??"].map String.toList

/-! ## tokens -/

/-- The text after a comment that begins with `/*`, from behind these. -/
def afterBlockComment : List Char → List Char
  | [] => []
  | '*' :: '/' :: rest => rest
  | _ :: rest => afterBlockComment rest

/-- The first token of a text that begins with neither white space nor a
preprocessor line, and the text after it. -/
def nextToken (s : List Char) : Option (Token × List Char) :=
  match s with
  | [] => none
  | '/' :: '/' :: _ =>
    let line := s.takeWhile (!isLineEnd ·)
    some (.comment (.ofList line), s.drop line.length)
  | '/' :: '*' :: inside =>
    let rest := afterBlockComment inside
    some (.comment (.ofList (s.take (s.length - rest.length))), rest)
  | c :: after =>
    match skipLiteral s, skipCharacter s with
    | some rest, _ => some (.literal, rest)
    | none, some rest => some (.literal, rest)
    | none, none =>
      if c.isDigit then
        some (.literal, after.dropWhile isWordChar)
      else if isWordStart c then
        let word := after.takeWhile isWordChar
        some (.word (.ofList (c :: word)), after.drop word.length)
      else if longMarks.contains (s.take 2) then
        some (.mark (.ofList (s.take 2)), s.drop 2)
      else
        some (.mark c.toString, after)

/-- The tokens of a text, with at most so many characters left.  The flag tells
whether only white space stands before it on its line. -/
def tokensFrom : Nat → Bool → List Char → List Token
  | 0, _, _ => []
  | _, _, [] => []
  | fuel + 1, lineStart, c :: rest =>
    if isSeparator c then tokensFrom fuel (lineStart || isLineEnd c) rest
    else if lineStart && c == '#' then
      let line := rest.takeWhile (!isLineEnd ·)
      let name := (trimStart line).takeWhile isWordChar
      .directive (.ofList name) :: tokensFrom fuel true (rest.drop line.length)
    else match nextToken (c :: rest) with
      | none => []
      | some (token, after) => token :: tokensFrom fuel false after

/-- The tokens of a text, in order. -/
def tokens (s : List Char) : List Token := tokensFrom s.length true s

end ResourceAudit.CSharp
