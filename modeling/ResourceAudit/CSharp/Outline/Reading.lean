import ResourceAudit.CSharp.Outline
import ResourceAudit.CSharp.Phrase

/-!
# ResourceAudit.CSharp.Outline.Reading

Reading the outline of a C# source from its trees.  Each phrase of a body is a
member, each phrase of a file or namespace an item; conditional groups of
preprocessor lines nest both.  Operators, conversions and finalizers, and
statements outside every type, are read over.
-/

namespace ResourceAudit.CSharp

/-! ## conditional groups -/

/-- An element of a body, or the edge of a branch of a conditional group. -/
inductive Edged (α : Type) where
  | element (a : α)
  /-- The beginning of the first branch of a group. -/
  | first
  /-- The beginning of a later branch. -/
  | next
  | last

/-- The edge a preprocessor line stands for. -/
def edge? (α : Type) : String → Option (Edged α)
  | "if" => some .first
  | "elif" | "else" => some .next
  | "endif" => some .last
  | _ => none

/-- The elements around a branch of a conditional group, the last one first,
and whether the branch is a later one. -/
structure Branch (α : Type) where
  before : List α
  later : Bool

/-- Closes branches up to the first branch of the innermost group. -/
def closeGroup {α : Type} (wrap : List α → α) : List (Branch α) → List α → List (Branch α) × List α
  | [], level => ([], level)
  | branch :: outer, level =>
    let level' := wrap level.reverse :: branch.before
    if branch.later then closeGroup wrap outer level' else (outer, level')

/-- Nests the branches of conditional groups, each branch in the one before it.
A group that nothing ends reaches to the end. -/
def nest {α : Type} (wrap : List α → α) (outer : List (Branch α)) (level : List α) :
    List (Edged α) → List α
  | [] => (outer.foldl (fun level branch => wrap level.reverse :: branch.before) level).reverse
  | .element a :: rest => nest wrap outer (a :: level) rest
  | .first :: rest => nest wrap (⟨level, false⟩ :: outer) [] rest
  | .next :: rest =>
    match outer with
    | [] => nest wrap [] level rest
    | _ => nest wrap (⟨level, true⟩ :: outer) [] rest
  | .last :: rest =>
    let (outer', level') := closeGroup wrap outer level
    nest wrap outer' level' rest

/-! ## names and parameters -/

/-- A name without the mark that lets a keyword be one. -/
def plainName (name : String) : String :=
  match name.toList with
  | '@' :: rest => .ofList rest
  | _ => name

/-- The words before the type of a parameter. -/
def parameterModifiers : List String :=
  ["this", "scoped", "ref", "out", "in", "params", "readonly"]

/-- Whether a tree is a word before the type of a parameter. -/
def isParameterModifier (t : Tree) : Bool := t.word?.any parameterModifiers.contains

/-- The parameter in a list of trees between two commas.  Its type is what is
left between its modifiers and its name. -/
def parameter? (ts : List Tree) : Option Parameter :=
  let modifiers := (afterAttributes ts).takeWhile isParameterModifier
  let declared := (ts.takeWhile (!·.isMark "=")).dropWhile fun t =>
    t.isTrivia || isParameterModifier t || (match t with | .group .square _ => true | _ => false)
  let unnamed := (declared.reverse.dropWhile (·.isTrivia)).drop 1
  let type := (unnamed.dropWhile (·.isTrivia)).reverse
  if declared.isEmpty then none else some ⟨modifiers.filterMap Tree.word?, textOf type⟩

/-- The parameters in a list in brackets. -/
def parameters (inside : List Tree) : List Parameter :=
  (splitCommas 0 false inside).filterMap parameter?

/-- The names a field declaration declares after its type. -/
def declarators (ts : List Tree) : List String :=
  (splitCommas 0 false ts).filterMap fun part =>
    (part.head?.bind Tree.word?).map plainName |>.filter (!·.isEmpty)

/-- The comments at the front of a list of trees, after the last preprocessor
line among them. -/
def leadingComments (ts : List Tree) : List String :=
  (ts.takeWhile (·.isTrivia)).reverse
    |>.takeWhile (fun | .leaf (.directive _) => false | _ => true)
    |>.filterMap (fun | .leaf (.comment text) => some text | _ => none)
    |>.reverse

/-- The members of an enumeration. -/
def constants (body : List Tree) : List Member :=
  (splitCommas 0 true body).filterMap fun part =>
    match afterAttributes part with
    | .leaf (.word name) :: _ => some (.constant ⟨leadingComments part, []⟩ (plainName name))
    | _ => none

/-! ## types -/

/-- What the head of a type declaration says. -/
structure TypeHead where
  kind : TypeKind
  name : String
  arity : Nat

/-- The kind of type the trees after the modifiers declare, and the trees after
the words for it. -/
def typeKeyword? : List Tree → Option (TypeKind × List Tree)
  | .leaf (.word "ref") :: .leaf (.word "struct") :: rest => some (.struct, rest)
  | .leaf (.word "record") :: .leaf (.word "struct") :: rest
  | .leaf (.word "record") :: .leaf (.word "class") :: rest => some (.record, rest)
  | .leaf (.word "record") :: .leaf (.word name) :: rest =>
    some (.record, .leaf (.word name) :: rest)
  | .leaf (.word word) :: rest =>
    match word with
    | "class" => some (.class, rest)
    | "struct" => some (.struct, rest)
    | "interface" => some (.interface, rest)
    | "enum" => some (.enum, rest)
    | "delegate" => if rest.head?.any (·.isMark "*") then none else some (.delegate, rest)
    | _ => none
  | _ => none

/-- The head of a type declaration; without a name when that is missing. -/
def typeHead? (ts : List Tree) : Option (Option TypeHead) :=
  (typeKeyword? ts).map fun (kind, rest) =>
    let named := if kind = .delegate then afterType rest else some rest
    match named with
    | some (.leaf (.word name) :: after) => some ⟨kind, plainName name, (takeAngles after).1⟩
    | _ => none

/-! ## members -/

/-- A member other than a type, from the trees after its modifiers. -/
def plainMember? (lead : Lead) (ts : List Tree) : Option Member :=
  match ts with
  | .leaf (.word "event") :: rest =>
    match afterType rest with
    | none => some .unreadable
    | some declared =>
      match takeName declared with
      | some ((name, _), .group .curly _ :: _) => some (.event lead (plainName name))
      | _ => some (.fieldEvents lead (declarators declared))
  | .leaf (.word "implicit") :: _ | .leaf (.word "explicit") :: _ | .leaf (.mark "~") :: _ => none
  | .leaf (.word _) :: .group .round inside :: _ => some (.constructor lead (parameters inside))
  | _ =>
    match afterType ts with
    | none => some .unreadable
    | some declared =>
      match takeName declared with
      | none => some .unreadable
      | some (("operator", _), _) => none
      | some (("this", _), .group .square inside :: _) => some (.indexer lead (parameters inside))
      | some ((name, arity), .group .round inside :: _) =>
        some (.method lead (plainName name) arity (parameters inside))
      | some ((name, _), .group .curly _ :: _) => some (.property lead (plainName name))
      | some ((name, _), after) =>
        if after.head?.any (·.isMark "=>") then some (.property lead (plainName name))
        else some (.fields lead (declarators declared))

/-- The body of a phrase: the trees in its last braces. -/
def Phrase.body (p : Phrase) : List Tree :=
  match p.trees.getLast? with
  | some (.group .curly inside) => inside
  | _ => []

theorem Phrase.body_mem {p : Phrase} (h : p.body ≠ []) : Tree.group .curly p.body ∈ p.trees := by
  unfold Phrase.body at h ⊢
  split at h
  · next hlast => simpa [hlast] using List.mem_of_getLast? hlast
  · exact absurd rfl h

theorem mem_of_mem_piecesFrom {p : Phrase} {t : Tree} {comments : List String}
    {current : List Tree} {assigned : Bool} {ts : List Tree}
    (hp : .phrase p ∈ piecesFrom comments current assigned ts) (ht : t ∈ p.trees) :
    t ∈ current ∨ t ∈ ts := by
  induction ts generalizing comments current assigned with
  | nil =>
    rw [piecesFrom] at hp
    split at hp
    · simp at hp
    · simp only [List.mem_singleton, Piece.phrase.injEq] at hp
      subst hp
      simpa using ht
  | cons tree rest ih =>
    rw [piecesFrom.eq_def] at hp
    grind

/-- A body is smaller than the trees its phrase was found in. -/
theorem sizeOf_body_lt {p : Phrase} {ts : List Tree} (hp : .phrase p ∈ pieces ts)
    (h : p.body ≠ []) : sizeOf p.body < sizeOf ts := by
  have hmem : Tree.group .curly p.body ∈ ts := by
    simpa using mem_of_mem_piecesFrom hp (Phrase.body_mem h)
  have := List.sizeOf_lt_of_mem hmem
  simp only [Tree.group.sizeOf_spec] at this
  omega

/-- The members in the body of a type. -/
def members (ts : List Tree) : List Member :=
  nest .conditional [] [] <| (pieces ts).attach.filterMap fun
    | ⟨.directive name, _⟩ => edge? Member name
    | ⟨.phrase p, _hp⟩ =>
      let (modifiers, rest) := takeModifiers (afterAttributes p.trees)
      let lead : Lead := ⟨p.comments, modifiers⟩
      if rest.isEmpty && modifiers.isEmpty then none
      else if !p.ended then some (.element .unreadable)
      else match typeHead? rest with
        | none => (plainMember? lead rest).map .element
        | some none => some (.element .unreadable)
        | some (some ⟨kind, name, arity⟩) =>
          let inner :=
            if kind = .enum then constants p.body
            else if _h : p.body = [] then [] else members p.body
          some (.element (.type lead kind name arity inner))
termination_by sizeOf ts
decreasing_by exact sizeOf_body_lt _hp _h

/-! ## items -/

/-- The items in a file or in the body of a namespace. -/
def items (ts : List Tree) : List Item :=
  nest .conditional [] [] <| (pieces ts).attach.filterMap fun
    | ⟨.directive name, _⟩ => edge? Item name
    | ⟨.phrase p, _hp⟩ =>
      let (modifiers, rest) := takeModifiers (afterAttributes p.trees)
      if rest.isEmpty && modifiers.isEmpty then none
      else if !p.ended then some (.element .unreadable)
      else match rest with
        | .leaf (.word "namespace") :: rest =>
          let name := plainName (textOf (rest.takeWhile fun | .group .curly _ => false | _ => true))
          match p.trees.getLast? with
          | some (.group .curly _) =>
            some (.element (.namespace name (if _h : p.body = [] then [] else items p.body)))
          | _ => some (.element (.fileNamespace name))
        | _ => match typeHead? rest with
          | none => none
          | some none => some (.element .unreadable)
          | some (some ⟨kind, name, arity⟩) =>
            let inner := if kind = .enum then constants p.body else members p.body
            some (.element (.type kind name arity inner))
termination_by sizeOf ts
decreasing_by exact sizeOf_body_lt _hp _h

/-! ## sources -/

/-- The outline of a source file. -/
structure Outline where
  items : List Item
  /-- Whether all brackets of the source have partners. -/
  balanced : Bool

/-- The outline of a text. -/
def Outline.ofText (s : List Char) : Outline :=
  let forest := Forest.ofTokens (tokens s)
  ⟨CSharp.items forest.trees, forest.balanced⟩

/-- Whether part of the source could not be read. -/
def Outline.hasFaults (o : Outline) : Bool := !o.balanced || anyItemFaulty o.items

end ResourceAudit.CSharp
