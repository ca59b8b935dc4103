import ResourceAudit.FileTree
import ResourceAudit.Project
import ResourceAudit.Xml.Document

/-!
# ResourceAudit.Project.Evaluation

Evaluating a project file: a single pass through its elements that carries the
properties set so far.  Conditions are not decided; what stands under one is
left out.
-/

namespace ResourceAudit

open ResourceAudit.Text ResourceAudit.Xml

/-- Why a project cannot be evaluated. -/
inductive ProjectFault where
  | unreadable (fault : FileFault)
  | markup (fault : MarkupFault)
  | attribute (fault : AttributeFault)
  | reference (fault : ReferenceFault)
  | wrongRoot
  | noRoot
  | unclosed
  deriving DecidableEq, Repr

def ProjectFault.message : ProjectFault → String
  | .unreadable fault => fault.message
  | .markup fault => fault.message
  | .attribute fault => fault.message
  | .reference fault => fault.message
  | .wrongRoot => "root element is not <Project>"
  | .noRoot => "missing <Project> root element"
  | .unclosed => "unexpected end of file"

/-- An element that is open. -/
structure Frame where
  name : String
  /-- Whether a condition holds for it or for an element around it. -/
  conditional : Bool
  deriving DecidableEq, Repr

/-- What is known in the middle of a project file. -/
structure Evaluation where
  properties : Properties
  sdkStyle : Bool
  items : List CompileItem
  /-- The open elements, innermost first. -/
  frames : List Frame
  hasRoot : Bool
  /-- The property whose element is open, with its text so far. -/
  property : Option (String × List Char)
  deriving DecidableEq, Repr

/-! ## elements -/

/-- The value of an attribute of an element. -/
def attributeValue? (tag : Tag) (key : String) : Except ProjectFault (Option String) := do
  match ← (tag.attribute? key).mapError .attribute with
  | none => return none
  | some a => return some (.ofList (← (expand a.rawValue).mapError .reference))

/-- Whether an element has an attribute that is not blank. -/
def hasAttribute (tag : Tag) (key : String) : Except ProjectFault Bool := do
  return (← attributeValue? tag key).any fun value => !isBlankText value.toList

def isInside (frames : List Frame) (name : String) : Bool := frames.head?.any (·.name == name)

/-- Looks at the root element. -/
def Evaluation.root (e : Evaluation) (tag : Tag) : Except ProjectFault (Evaluation × Frame) := do
  if tag.localName ≠ "Project".toList then throw .wrongRoot
  let sdkStyle ← hasAttribute tag "Sdk"
  let conditional ← hasAttribute tag "Condition"
  return ({ e with sdkStyle, hasRoot := true }, ⟨"Project", conditional⟩)

/-- The frame of an element inside the open ones. -/
def frameOf (frames : List Frame) (tag : Tag) : Except ProjectFault Frame := do
  let name := String.ofList tag.localName
  if frames.head?.any (·.conditional) then return ⟨name, true⟩
  else return ⟨name, ← hasAttribute tag "Condition"⟩

/-- The compile items an element adds: what it includes, then what it removes. -/
def compileItems (tag : Tag) : Except ProjectFault (List CompileItem) := do
  let included ← attributeValue? tag "Include"
  let removed ← attributeValue? tag "Remove"
  return (included.map .include).toList ++ (removed.map .remove).toList

/-- Looks at the tag of an element other than the root. -/
def Evaluation.element (e : Evaluation) (tag : Tag) (frame : Frame) (isEmpty : Bool) :
    Except ProjectFault Evaluation := do
  if frame.name == "Sdk" && isInside e.frames "Project" then return { e with sdkStyle := true }
  if frame.name == "Import" then
    if (← attributeValue? tag "Sdk").isSome then return { e with sdkStyle := true }
  if frame.name == "Compile" && isInside e.frames "ItemGroup" && !frame.conditional then
    return { e with items := e.items ++ (← compileItems tag) }
  if isEmpty && isInside e.frames "PropertyGroup" && !frame.conditional then
    return { e with properties := e.properties.set frame.name "" }
  return e

/-- Adds to the text of the property that is open. -/
def Evaluation.addText (e : Evaluation) (text : List Char) : Evaluation :=
  { e with property := e.property.map fun (name, before) => (name, before ++ text) }

/-- Closes the innermost element. -/
def Evaluation.close (e : Evaluation) : Evaluation :=
  match e.frames with
  | [] => e
  | frame :: outer =>
    match isInside outer "PropertyGroup", e.property with
    | true, some (name, text) =>
      let value := e.properties.expand (.ofList (trim text))
      let properties := if frame.conditional then e.properties else e.properties.set name value
      { e with frames := outer, property := none, properties }
    | _, _ => { e with frames := outer }

/-! ## documents -/

/-- Goes through one part of a project file. -/
def Evaluation.step (e : Evaluation) (event : Event) : Except ProjectFault Evaluation :=
  match event with
  | .opened tag =>
    if !e.hasRoot then do
      let (e, frame) ← e.root tag
      return { e with frames := frame :: e.frames }
    else do
      let frame ← frameOf e.frames tag
      let inner ← e.element tag frame false
      let property :=
        if isInside e.frames "PropertyGroup" then some (frame.name, []) else e.property
      return { inner with property, frames := frame :: e.frames }
  | .empty tag =>
    if !e.hasRoot then do
      let (e, _) ← e.root tag
      return e
    else do
      let frame ← frameOf e.frames tag
      e.element tag frame true
  | .text raw =>
    if e.property.isNone then return e
    else do
      let text ← (expand raw).mapError .reference
      return e.addText text
  | .cdata text => return e.addText text
  | .closed _ => return e.close
  | .other => return e

/-- The properties every project has. -/
def builtInProperties (path toolchain : Path) : Properties :=
  let dir := path.directory.text
  [("MSBuildProjectDirectory", dir), ("MSBuildThisFileDirectory", dir ++ "/"),
    ("MSBuildProjectName", path.stem.getD ""), ("MSBuildProjectFile", path.fileName.getD ""),
    ("MSBuildBinPath", toolchain.text), ("MSBuildToolsPath", toolchain.text),
    ("Configuration", "Debug")].foldl (fun p (name, value) => p.set name value) ⟨[]⟩

/-- Evaluates the text of a project file. -/
def Project.ofText (reference : ProjectReference) (toolchain : Path) (text : String) :
    Except ProjectFault Project := do
  let document := Document.ofText text.toList
  let start : Evaluation := ⟨builtInProperties reference.path toolchain, false, [], [], false, none⟩
  let e ← document.events.foldlM Evaluation.step start
  match document.fault with
  | some fault => throw (.markup fault)
  | none =>
    if !e.hasRoot then throw .noRoot
    if !e.frames.isEmpty then throw .unclosed
    return ⟨reference.name, reference.path, e.sdkStyle, e.properties, e.items⟩

/-- Reads and evaluates a project file. -/
def Project.load (t : FileTree) (reference : ProjectReference) (toolchain : Path) :
    Except ProjectFault Project := do
  let text ← (t.read reference.path).mapError .unreadable
  Project.ofText reference toolchain text

end ResourceAudit
