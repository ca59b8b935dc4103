import ResourceAudit.Config.Reading
import ResourceAudit.FileTree

/-!
# ResourceAudit.Config.Search

Finding the configuration that holds for a directory: the file in the nearest
directory around it that has one.  The search ends at the directory that holds
a repository.
-/

namespace ResourceAudit

/-- The name of configuration files. -/
def configFileName : String := ".resxduprc.json"

/-- The directories from a path on, each followed by its parent. -/
def Path.ancestorsWithin : Nat → Path → List Path
  | 0, p => [p]
  | fuel + 1, p => p :: (p.parent.elim [] (Path.ancestorsWithin fuel))

/-- The directories from a path on up to where it begins. -/
def Path.ancestors (p : Path) : List Path := p.ancestorsWithin (p.components.length + 1)

/-- The configuration file of the first directory that has one, up to the first
that holds a repository. -/
def findConfigIn (t : FileTree) : List Path → Option Path
  | [] => none
  | dir :: outer =>
    if t.exists (dir.join configFileName) then some (dir.join configFileName)
    else if t.exists (dir.join ".git") then none
    else findConfigIn t outer

/-- The configuration file that holds for a directory. -/
def findConfig (t : FileTree) (dir : Path) : Option Path := findConfigIn t dir.ancestors

/-- Why a configuration cannot be loaded. -/
inductive ConfigFault where
  | unreadable (fault : FileFault)
  | malformed (path : Path) (fault : Config.TextFault)
  | invalid (flaw : Config.Flaw)
  deriving DecidableEq, Repr

def ConfigFault.message : ConfigFault → String
  | .unreadable fault => fault.message
  | .malformed path fault =>
    "Failed to parse config file: " ++ Text.quoted path.text ++ ": " ++ fault.message
  | .invalid flaw => flaw.message

/-- A configuration and the file it comes from. -/
structure LoadedConfig where
  config : Config
  path : Option Path
  deriving DecidableEq, Repr

/-- The configuration that holds for a directory. -/
def loadConfig (t : FileTree) (dir : Path) : Except ConfigFault LoadedConfig :=
  match findConfig t dir with
  | none => .ok ⟨.default, none⟩
  | some path => do
    let text ← (t.read path).mapError .unreadable
    let config ← (Config.ofText text).mapError (.malformed path)
    match config.flaw? with
    | some flaw => .error (.invalid flaw)
    | none => .ok ⟨config, some path⟩

end ResourceAudit
