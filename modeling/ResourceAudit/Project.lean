import ResourceAudit.Path
import ResourceAudit.Text.Blank
import ResourceAudit.Text.Cut

/-!
# ResourceAudit.Project

A C# project as far as its sources depend on it: its properties, the items it
adds to and removes from its sources, and the frameworks it targets.  Property
names do not depend on case; a reference `$(Name)` stands for the value of the
property, or for nothing.
-/

namespace ResourceAudit

open ResourceAudit.Text

/-! ## properties -/

/-- A name without differences of case. -/
def foldCase (name : String) : String := name.map Char.toLower

/-- Values by their names, which are kept in lower case. -/
structure Properties where
  entries : List (String × String)
  deriving DecidableEq, Repr

/-- The value under a name that is in lower case. -/
def Properties.get? (p : Properties) (key : String) : Option String := p.entries.lookup key

/-- Sets the value of a property. -/
def Properties.set (p : Properties) (name value : String) : Properties :=
  ⟨(foldCase name, value) :: p.entries⟩

/-- The value of a property under any spelling of its name. -/
def Properties.find? (p : Properties) (name : String) : Option String := p.get? (foldCase name)

/-- Whether a property says no. -/
def Properties.isFalse (p : Properties) (name : String) : Bool :=
  (p.find? name).any fun value => (trim value.toList).map Char.toLower == "false".toList

/-! ## references -/

def isNameStart (c : Char) : Bool := c.isAlpha || c == '_'

def isNameChar (c : Char) : Bool := c.isAlphanum || c == '_' || c == '.' || c == '-'

/-- The name of the reference at the front of a text, and the text after it. -/
def takeReference (s : List Char) : Option (List Char × List Char) :=
  match s with
  | '$' :: '(' :: first :: rest =>
    let others := rest.takeWhile isNameChar
    match isNameStart first, rest.drop others.length with
    | true, ')' :: after => some (first :: others, after)
    | _, _ => none
  | _ => none

theorem takeReference_length {s name after : List Char}
    (h : takeReference s = some (name, after)) : after.length < s.length := by
  unfold takeReference at h
  split at h
  · next first rest =>
    dsimp only at h
    split at h
    · next he =>
      simp only [Option.some.injEq, Prod.mk.injEq] at h
      obtain ⟨-, rfl⟩ := h
      have := congrArg List.length he
      simp only [List.length_drop, List.length_cons] at this ⊢
      omega
    · simp at h
  · simp at h

/-- A text with every reference replaced by the value of its property.  Values
are not looked through again. -/
def expandText (p : Properties) (s : List Char) : List Char :=
  match s with
  | [] => []
  | c :: rest =>
    match _h : takeReference (c :: rest) with
    | some (name, after) =>
      ((p.find? (.ofList name)).getD "").toList ++ expandText p after
    | none => c :: expandText p rest
termination_by s.length
decreasing_by
  · exact takeReference_length _h
  · simp

def Properties.expand (p : Properties) (s : String) : String := .ofList (expandText p s.toList)

/-- The entries of a list written with semicolons. -/
def splitList (s : String) : List String :=
  (((fields (· == ';') s.toList).map trim).filter (!·.isEmpty)).map String.ofList

/-! ## projects -/

/-- Where a project is said to be, and under which name. -/
structure ProjectReference where
  name : String
  path : Path
  deriving DecidableEq, Repr

/-- A step in putting together the sources of a project. -/
inductive CompileItem where
  | include (spec : String)
  | remove (spec : String)
  deriving DecidableEq, Repr

structure Project where
  name : String
  path : Path
  sdkStyle : Bool
  properties : Properties
  /-- The compile items in the order of the project file. -/
  items : List CompileItem
  deriving DecidableEq, Repr

/-- The directory around a path. -/
def Path.directory (p : Path) : Path := p.parent.getD ⟨"."⟩

def Project.dir (p : Project) : Path := p.path.directory

/-- The frameworks a project targets: those of the list if there are any, and
otherwise the single one. -/
def Project.targetFrameworks (p : Project) : List String :=
  match splitList ((p.properties.get? "targetframeworks").getD "") with
  | [] => (splitList ((p.properties.get? "targetframework").getD "")).take 1
  | frameworks => frameworks

/-- What a project is built for: each framework, or nothing in particular. -/
def Project.targets (p : Project) : List (Option String) :=
  match p.targetFrameworks with
  | [] => [none]
  | frameworks => frameworks.map some

end ResourceAudit
