import ResourceAudit.FileTree
import ResourceAudit.Version

/-!
# ResourceAudit.Toolchain

The installed toolchains of a machine.  Every toolchain is a directory that
holds the build engine; a root of toolchains holds one directory for each
version, newest first.  A path that is given explicitly is looked at instead of
all roots.
-/

namespace ResourceAudit

open ResourceAudit.Text

/-- The file that makes a directory a toolchain. -/
def engineName : String := "MSBuild.dll"

/-- The name of every toolchain. -/
def toolchainName : String := ".NET Core SDK"

structure Toolchain where
  name : String
  version : String
  /-- The directory that holds the build engine. -/
  path : Path
  deriving DecidableEq, Repr

/-- The toolchain in a directory, whose name is its version. -/
def Toolchain.inDir (dir : Path) : Toolchain := ⟨toolchainName, dir.fileName.getD "", dir⟩

/-- The toolchain with the given version, or the first if none is given. -/
def selectToolchain (toolchains : List Toolchain) (version : Option String) : Option Toolchain :=
  match version with
  | some v => toolchains.find? (·.version == v)
  | none => toolchains.head?

/-! ## places -/

def isToolchainDir (t : FileTree) (dir : Path) : Bool := t.isFile (dir.join engineName)

/-- Sorts toolchains, the newest first. -/
def newestFirst (toolchains : List Toolchain) : List Toolchain :=
  toolchains.mergeSort fun a b => (compareVersionNames b.version a.version).isLE

/-- The toolchains below a root. -/
def toolchainsIn (t : FileTree) (root : Path) : List Toolchain :=
  let sdk := root.join "sdk"
  let dirs := ((t.list? sdk).getD []).map fun (name, _) => sdk.join name
  newestFirst ((dirs.filter (isToolchainDir t)).map Toolchain.inDir)

/-- The toolchains at a path: the directory itself or that of the file, if it
is a toolchain, and otherwise those below it. -/
def toolchainsAt (t : FileTree) (path : Path) : List Toolchain :=
  match if t.isFile path then path.parent else some path with
  | none => []
  | some dir => if isToolchainDir t dir then [Toolchain.inDir dir] else toolchainsIn t dir

/-- The path that tells whether two roots are the same: without links if it
leads anywhere, and as it is if not. -/
def rootIdentity (t : FileTree) (root : Path) : Path := (t.canonical? root).getD root

/-- The roots that are not the same as one before them. -/
def distinctRoots (t : FileTree) (seen : List Path) : List Path → List Path
  | [] => []
  | root :: rest =>
    let identity := rootIdentity t root
    if seen.any identity.same then distinctRoots t seen rest
    else root :: distinctRoots t (identity :: seen) rest

/-! ## discovery -/

/-- Where toolchains are looked for. -/
structure ToolchainSource where
  explicit : Option Path
  roots : List Path
  deriving DecidableEq, Repr

/-- All toolchains, in the order in which they are found. -/
def ToolchainSource.toolchains (s : ToolchainSource) (t : FileTree) : List Toolchain :=
  match s.explicit with
  | some path => toolchainsAt t path
  | none => (distinctRoots t [] s.roots).flatMap (toolchainsIn t)

/-- Why no toolchain is used. -/
inductive ToolchainFault where
  | notAt (path : Path)
  | notInstalled (version : String)
  | nothingFound
  deriving DecidableEq, Repr

def ToolchainFault.reason : ToolchainFault → String
  | .notAt path => s!"'{path.text}' does not contain {engineName}"
  | .notInstalled version => s!"SDK version '{version}' is not installed"
  | .nothingFound => "install the .NET SDK, set DOTNET_ROOT or pass --msbuild-path"

/-- The toolchain that is used. -/
def ToolchainSource.locate (s : ToolchainSource) (t : FileTree) (version : Option String) :
    Except ToolchainFault Toolchain :=
  match selectToolchain (s.toolchains t) version, s.explicit, version with
  | some toolchain, _, _ => .ok toolchain
  | none, some path, _ => .error (.notAt path)
  | none, none, some v => .error (.notInstalled v)
  | none, none, none => .error .nothingFound

/-! ## roots of a machine -/

/-- The variables of an environment with their values. -/
abbrev Environment := List (String × String)

/-- The directories with installed toolchains below a home directory and on the
whole machine. -/
def defaultRoots (env : Environment) : List Path :=
  let home := (env.lookup "HOME").or (env.lookup "USERPROFILE")
  (home.map fun dir => Path.join ⟨dir⟩ ".dotnet").toList ++
    ["/usr/local/share/dotnet", "/usr/share/dotnet", "/usr/lib/dotnet", "/opt/dotnet"].map Path.mk

/-- The root that a program directory leads to: that of the program in it. -/
def rootOfProgram? (t : FileTree) (dir : Path) : Option Path := do
  let program ← (["dotnet", "dotnet.exe"].map dir.join).find? t.isFile
  let real ← t.canonical? program
  real.parent

/-- The roots that an environment names: the configured one, those of the
programs on the search path, and the usual ones. -/
def ToolchainSource.ofEnvironment (t : FileTree) (env : Environment) : ToolchainSource :=
  let configured := (env.lookup "DOTNET_ROOT").filter (!·.isEmpty)
  let searched := (env.lookup "PATH").elim [] fun path =>
    (fields (· == ':') path.toList).map fun dir => Path.mk (.ofList dir)
  ⟨none, configured.toList.map Path.mk ++ searched.filterMap (rootOfProgram? t) ++ defaultRoots env⟩

end ResourceAudit
