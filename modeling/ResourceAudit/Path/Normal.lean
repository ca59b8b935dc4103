import ResourceAudit.Path

/-!
# ResourceAudit.Path.Normal

Paths resolved without looking at any file.  `Path.normalize` drops dots and
lets a step up cancel the component before it; `Path.absolute` puts a relative
path below the working directory and leaves steps up alone.
-/

namespace ResourceAudit

/-- The path that components make up. -/
def Path.ofComponents : List Component → Path
  | .root :: rest => ⟨"/" ++ "/".intercalate (rest.map Component.text)⟩
  | components => ⟨"/".intercalate (components.map Component.text)⟩

/-- Adds one component to those that have been resolved.  A step up stays where
nothing is left to drop, that is at the beginning and at the root. -/
def resolveStep (resolved : List Component) : Component → List Component
  | .here => resolved
  | .up => if resolved = [] ∨ resolved = [.root] then resolved ++ [.up] else resolved.dropLast
  | component => resolved ++ [component]

/-- The path without dots and without steps up that cancel. -/
def Path.normalize (p : Path) : Path := .ofComponents (p.components.foldl resolveStep [])

/-- The path from the root on, when `here` is the working directory.  Two
slashes at the beginning and one at the end are kept. -/
def Path.absolute (p here : Path) : Path :=
  let stripped := ((p.stripPrefix ⟨"."⟩).getD p).components
  let doubled := match p.text.toList with
    | '/' :: '/' :: '/' :: _ => false
    | '/' :: '/' :: _ => true
    | _ => false
  let start : Path × List Component :=
    if doubled then (⟨"//"⟩, stripped.drop 1)
    else if p.isAbsolute then (⟨""⟩, stripped)
    else (here, stripped)
  let full := start.2.foldl (fun path component => path.join component.text) start.1
  if p.text.toList.getLast? = some '/' then full.join "" else full

end ResourceAudit
