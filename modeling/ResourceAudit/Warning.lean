import ResourceAudit.FileTree
import ResourceAudit.Glob.Pattern

/-!
# ResourceAudit.Warning

What a run warns about while it goes on.
-/

namespace ResourceAudit

inductive Warning where
  /-- A directory that cannot be looked through. -/
  | inaccessible (path : Path) (fault : FileFault)
  /-- The number of paths below a directory that were passed over; `hint` tells
  whether to say how to learn more. -/
  | skipped (count : Nat) (dir : Path) (hint : Bool)
  | invalidIgnore (pattern : String) (fault : Glob.Fault)
  | invalidInclude (spec : String) (fault : Glob.Fault)
  | missingInclude (path : Path)
  | failedProject (path : Path) (reason : String)
  | faultySource (path : Path)
  deriving DecidableEq, Repr

def Warning.message : Warning → String
  | .inaccessible path fault =>
    s!"Cannot access path: IO error for operation on {path.text}: {fault.message}"
  | .skipped count dir hint =>
    s!"{count} path(s) skipped in '{dir.text}' due to access errors" ++
      if hint then " (use -v for details)" else ""
  | .invalidIgnore pattern fault => s!"Invalid ignore pattern '{pattern}': {fault.message}"
  | .invalidInclude spec fault => s!"Invalid Compile pattern '{spec}': {fault.message}"
  | .missingInclude path => s!"Compile item does not exist: {path.text}"
  | .failedProject path reason => s!"Failed to load project '{path.text}': {reason}"
  | .faultySource path => s!"Syntax errors in '{path.text}', declarations may be incomplete"

/-- The line a warning is printed as. -/
def Warning.line (w : Warning) : String := "warning: " ++ w.message

end ResourceAudit
