import ResourceAudit.CSharp.Token

/-!
# ResourceAudit.CSharp.Tree

Tokens grouped by their brackets.  A forest is balanced when every bracket has
its partner; a bracket without one is dropped, with what stands after it when
it is an opening one.
-/

namespace ResourceAudit.CSharp

/-- The brackets that group tokens. -/
inductive Bracket where
  | round
  | square
  | curly
  deriving DecidableEq, Repr

/-- A token, or what stands between two brackets. -/
inductive Tree where
  | leaf (token : Token)
  | group (bracket : Bracket) (inside : List Tree)

/-- The bracket a mark opens. -/
def opening : Token → Option Bracket
  | .mark "(" => some .round
  | .mark "[" => some .square
  | .mark "\x7b" => some .curly
  | _ => none

/-- The bracket a mark closes. -/
def closing : Token → Option Bracket
  | .mark ")" => some .round
  | .mark "]" => some .square
  | .mark "\x7d" => some .curly
  | _ => none

/-- The trees of a source, and whether all its brackets have partners. -/
structure Forest where
  trees : List Tree
  balanced : Bool

/-- Groups tokens.  `outer` holds the brackets that are open, innermost first,
each with the trees before it, and `level` the trees since the innermost of
them, both with the last tree first. -/
def grow (outer : List (Bracket × List Tree)) (level : List Tree) (balanced : Bool) :
    List Token → Forest
  | [] =>
    match outer.getLast? with
    | none => ⟨level.reverse, balanced⟩
    | some (_, before) => ⟨before.reverse, false⟩
  | token :: rest =>
    match opening token, closing token, outer with
    | some bracket, _, _ => grow ((bracket, level) :: outer) [] balanced rest
    | none, none, _ => grow outer (.leaf token :: level) balanced rest
    | none, some bracket, (opened, before) :: outer' =>
      if bracket = opened then
        grow outer' (.group bracket level.reverse :: before) balanced rest
      else grow outer level false rest
    | none, some _, [] => grow outer level false rest

/-- The trees of a list of tokens. -/
def Forest.ofTokens (ts : List Token) : Forest := grow [] [] true ts

/-! ## views of a tree -/

def Tree.isTrivia : Tree → Bool
  | .leaf token => token.isTrivia
  | .group .. => false

/-- Whether a tree is the given mark. -/
def Tree.isMark (text : String) : Tree → Bool
  | .leaf (.mark m) => m == text
  | _ => false

/-- Whether a tree is the given word. -/
def Tree.isWord (text : String) : Tree → Bool
  | .leaf (.word w) => w == text
  | _ => false

def Tree.word? : Tree → Option String
  | .leaf (.word w) => some w
  | _ => none

mutual
/-- The text of a tree, without the white space of the source. -/
def Tree.text : Tree → String
  | .leaf token => token.text
  | .group .round inside => "(" ++ textOf inside ++ ")"
  | .group .square inside => "[" ++ textOf inside ++ "]"
  | .group .curly inside => "\x7b" ++ textOf inside ++ "\x7d"

/-- The texts of trees, one after the other. -/
def textOf : List Tree → String
  | [] => ""
  | tree :: rest => tree.text ++ textOf rest
end

end ResourceAudit.CSharp
