import ResourceAudit.CSharp.Tree

/-!
# ResourceAudit.CSharp.Phrase

A phrase is the run of trees that makes one declaration or one statement: up to
a semicolon, or up to the braces of its body.  What follows an equals sign or
an arrow belongs to an initialiser or to an expression, where braces end
nothing.  The readers below take the parts of a phrase from its front:
modifiers, types and names.
-/

namespace ResourceAudit.CSharp

/-- The trees of one declaration or statement. -/
structure Phrase where
  /-- The comments directly before it, in order. -/
  comments : List String
  trees : List Tree
  /-- Whether a semicolon or a body has ended it. -/
  ended : Bool

/-- A phrase, or a preprocessor line between two phrases. -/
inductive Piece where
  | phrase (phrase : Phrase)
  | directive (name : String)

/-- Whether nothing but attributes stands before the line that ends a
conditional group, so that the group is the beginning of a declaration.
`depth` groups are open inside it, and `found` tells whether an attribute has
been seen. -/
def conditionalAttributes (depth : Nat) (found : Bool) : List Tree → Bool
  | .leaf (.directive name) :: rest =>
    if name == "if" then conditionalAttributes (depth + 1) found rest
    else if name == "endif" then
      if depth = 0 then found else conditionalAttributes (depth - 1) found rest
    else conditionalAttributes depth found rest
  | .leaf (.comment _) :: rest => conditionalAttributes depth found rest
  | .group .square _ :: rest => conditionalAttributes depth true rest
  | _ => false

/-- The pieces of a list of trees.  `comments` holds the comments since the last
piece and `current` the trees of the phrase that has begun, both with the last
one first; `assigned` tells whether that phrase has an equals sign or an arrow. -/
def piecesFrom (comments : List String) (current : List Tree) (assigned : Bool) :
    List Tree → List Piece
  | [] => if current.isEmpty then [] else [.phrase ⟨comments.reverse, current.reverse, false⟩]
  | tree :: rest =>
    let close (trees : List Tree) : List Piece :=
      .phrase ⟨comments.reverse, trees.reverse, true⟩ :: piecesFrom [] [] false rest
    match tree with
    | .leaf (.comment text) =>
      if current.isEmpty then piecesFrom (text :: comments) [] false rest
      else piecesFrom comments (tree :: current) assigned rest
    | .leaf (.directive name) =>
      if !current.isEmpty || (name == "if" && conditionalAttributes 0 false rest) then
        piecesFrom comments (tree :: current) assigned rest
      else .directive name :: piecesFrom [] [] false rest
    | .leaf (.mark ";") =>
      if current.isEmpty then piecesFrom [] [] false rest else close current
    | .group .curly _ =>
      let initialised := (rest.find? (!·.isTrivia)).any (·.isMark "=")
      if assigned || initialised then piecesFrom comments (tree :: current) assigned rest
      else close (tree :: current)
    | _ =>
      let assigned := assigned || tree.isMark "=" || tree.isMark "=>"
      piecesFrom comments (tree :: current) assigned rest

/-- The pieces of a list of trees, in order. -/
def pieces (ts : List Tree) : List Piece := piecesFrom [] [] false ts

/-! ## commas -/

/-- Whether trees from behind an angle bracket on can be the arguments of a
generic type: they are made of types up to the closing bracket, and what stands
after it can follow a type in an expression. -/
def areTypeArguments : Nat → List Tree → Bool
  | _, [] => false
  | depth, tree :: rest =>
    match tree with
    | .leaf (.mark m) =>
      if m == "<" then areTypeArguments (depth + 1) rest
      else if m == ">" then
        if 0 < depth then areTypeArguments (depth - 1) rest
        else match rest.find? (!·.isTrivia) with
          | none => true
          | some (.group ..) => true
          | some (.leaf (.mark next)) =>
            [";", ",", ".", "?", ":", "==", "!=", "|", "^", "&&", "||", "&", "=>", ">"].contains
              next
          | some _ => false
      else [".", ",", "?", "::", "*"].contains m && areTypeArguments depth rest
    | .leaf .literal => false
    | .leaf _ => areTypeArguments depth rest
    | .group .curly _ => false
    | .group .. => areTypeArguments depth rest

/-- The trees between the commas of a list.  Commas between angle brackets do
not separate; after an equals sign an angle bracket may also be a comparison. -/
def splitCommas (depth : Nat) (assigned : Bool) : List Tree → List (List Tree)
  | [] => [[]]
  | tree :: rest =>
    let keep (depth : Nat) (assigned : Bool) : List (List Tree) :=
      match splitCommas depth assigned rest with
      | [] => [[tree]]
      | part :: parts => (tree :: part) :: parts
    if tree.isMark "," && depth == 0 then [] :: splitCommas 0 false rest
    else if tree.isMark "<" && (0 < depth || !assigned || areTypeArguments 0 rest) then
      keep (depth + 1) assigned
    else if tree.isMark ">" then keep (depth - 1) assigned
    else keep depth (assigned || tree.isMark "=")

/-! ## parts of a phrase -/

/-- The trees that carry meaning, from behind the attributes on. -/
def afterAttributes (ts : List Tree) : List Tree :=
  (ts.filter (!·.isTrivia)).dropWhile fun
    | .group .square _ => true
    | _ => false

/-- The words that are always modifiers. -/
def modifierWords : List String :=
  ["public", "private", "protected", "internal", "static", "const", "readonly", "abstract",
    "virtual", "override", "sealed", "new", "extern", "unsafe", "volatile", "fixed"]

/-- Whether a word is a modifier before the given trees. -/
def isModifier (word : String) (rest : List Tree) : Bool :=
  modifierWords.contains word ||
    match word, rest with
    | "ref", next :: _ => next.isWord "struct" || next.isWord "partial"
    | "partial", .leaf (.word _) :: _ | "required", .leaf (.word _) :: _
    | "file", .leaf (.word _) :: _ | "async", .leaf (.word _) :: _ => true
    | "partial", .group .round _ :: .leaf (.word _) :: _
    | "required", .group .round _ :: .leaf (.word _) :: _
    | "async", .group .round _ :: .leaf (.word _) :: _ => true
    | _, _ => false

/-- The modifiers at the front of a phrase, and the trees after them. -/
def takeModifiers : List Tree → List String × List Tree
  | .leaf (.word word) :: rest =>
    if isModifier word rest then
      let (modifiers, after) := takeModifiers rest
      (word :: modifiers, after)
    else ([], .leaf (.word word) :: rest)
  | ts => ([], ts)

/-- The trees after the angle bracket that closes a list which has begun, with
`depth` lists open inside it, and the number of commas of the outer list. -/
def closeAngles : Nat → List Tree → Option (Nat × List Tree)
  | _, [] => none
  | depth, tree :: rest =>
    if tree.isMark "<" then closeAngles (depth + 1) rest
    else if tree.isMark ">" then
      if depth = 0 then some (0, rest) else closeAngles (depth - 1) rest
    else if tree.isMark "," && depth == 0 then
      (closeAngles depth rest).map fun (commas, after) => (commas + 1, after)
    else closeAngles depth rest

theorem closeAngles_length {depth commas : Nat} {ts after : List Tree}
    (h : closeAngles depth ts = some (commas, after)) : after.length < ts.length := by
  induction ts generalizing depth commas with
  | nil => simp [closeAngles] at h
  | cons tree rest ih =>
    rw [closeAngles] at h
    simp only [List.length_cons]
    split at h
    · have := ih h; omega
    · split at h
      · split at h
        · simp only [Option.some.injEq, Prod.mk.injEq] at h
          obtain ⟨-, rfl⟩ := h
          omega
        · have := ih h; omega
      · split at h
        · simp only [Option.map_eq_some_iff] at h
          obtain ⟨⟨n, r⟩, hr, he⟩ := h
          simp only [Prod.mk.injEq] at he
          obtain ⟨-, rfl⟩ := he
          have := ih hr; omega
        · have := ih h; omega

/-- The number of entries of the list in angle brackets at the front, zero if
there is none, and the trees after it. -/
def takeAngles (ts : List Tree) : Nat × List Tree :=
  match ts with
  | .leaf (.mark "<") :: rest =>
    match closeAngles 0 rest with
    | some (commas, after) => (commas + 1, after)
    | none => (0, ts)
  | _ => (0, ts)

theorem takeAngles_length (ts : List Tree) : (takeAngles ts).2.length ≤ ts.length := by
  unfold takeAngles
  split
  · split
    · next h => have := closeAngles_length h; simp only [List.length_cons]; omega
    · exact Nat.le_refl _
  · exact Nat.le_refl _

/-- The last segment of the qualified name at the front, with the number of
entries in its angle brackets, and the trees after the name. -/
def takeName : List Tree → Option ((String × Nat) × List Tree)
  | .leaf (.word word) :: rest =>
    let segment := (takeAngles rest).1
    match _h : (takeAngles rest).2 with
    | .leaf (.mark mark) :: next =>
      if mark == "." || mark == "::" then
        (takeName next).or (some ((word, segment), .leaf (.mark mark) :: next))
      else some ((word, segment), .leaf (.mark mark) :: next)
    | after => some ((word, segment), after)
  | _ => none
termination_by ts => ts.length
decreasing_by
  have := takeAngles_length rest
  simp only [_h, List.length_cons] at this ⊢
  omega

/-- Whether a tree turns the type before it into another one: an array, a
pointer or a type that admits no value. -/
def isTypeSuffix : Tree → Bool
  | .group .square _ => true
  | tree => tree.isMark "?" || tree.isMark "*"

/-- The trees after the type at the front. -/
def afterType (ts : List Tree) : Option (List Tree) :=
  let ts := match ts with
    | .leaf (.word "ref") :: .leaf (.word "readonly") :: rest => rest
    | .leaf (.word "ref") :: rest => rest
    | _ => ts
  let base : Option (List Tree) := match ts with
    | .group .round _ :: rest => some rest
    | .leaf (.word "delegate") :: .leaf (.mark "*") :: rest =>
      some (takeAngles (rest.dropWhile (!·.isMark "<"))).2
    | _ => (takeName ts).map Prod.snd
  base.map fun rest => rest.dropWhile isTypeSuffix

end ResourceAudit.CSharp
