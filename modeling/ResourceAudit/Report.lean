import ResourceAudit.Resource
import ResourceAudit.Toolchain

/-!
# ResourceAudit.Report

What a run prints: the groups of names with one value, a summary of them, the
installed toolchains, and a line for each step of loading.
-/

namespace ResourceAudit

/-- How a run ends. -/
inductive Status where
  | success
  /-- Values are shared. -/
  | failure
  /-- The sources could not be examined. -/
  | error
  deriving DecidableEq, Repr

/-- The status of a run that has found so many groups. -/
def Status.ofGroups (count : Nat) : Status := if count = 0 then .success else .failure

/-- The exit code of a run that ends so. -/
def Status.code : Status → Nat
  | .success => 0
  | .failure => 1
  | .error => 2

/-! ## groups -/

/-- The block of lines for one group. -/
def Group.report (g : Group) : String :=
  s!"The following resx files have duplicate values '{g.value}':\n" ++
    String.join (g.names.map fun name => s!"  {name}\n")

/-- The report on groups, one block after the other. -/
def reportGroups (groups : List Group) : String := String.join (groups.map Group.report)

/-! ## summary -/

/-- A number of things, which are named differently when there is one. -/
def counted (n : Nat) (one many : String) : String :=
  toString n ++ " " ++ if n = 1 then one else many

/-- The mark of a note, in bold cyan where colours are wanted. -/
def noteMark (colored : Bool) : String := if colored then "\x1b[1;36mnote:\x1b[0m" else "note:"

/-- One line that tells how many entries there are and how many share values. -/
def summary (groups : List Group) (entries : Nat) (colored : Bool) : String :=
  let keys := (groups.flatMap (·.names)).length
  noteMark colored ++ " " ++ counted entries "resource entry" "resource entries" ++ " checked, " ++
    counted groups.length "duplicate value" "duplicate values" ++ " across " ++
    counted keys "key" "keys" ++ "\n"

/-! ## toolchains -/

/-- The block of lines for one toolchain, with its number in the list. -/
def toolchainReport (number : Nat) (t : Toolchain) : String :=
  s!"Instance {number}\n    Name: {t.name}\n    Version: {t.version}\n" ++
    s!"    MSBuild Path: {t.path.text}\n"

/-- The list of toolchains. -/
def reportToolchains (toolchains : List Toolchain) : String :=
  if toolchains.isEmpty then "No MSBuild instances found\n"
  else String.join (toolchains.mapIdx fun i t => toolchainReport (i + 1) t)

/-! ## progress -/

/-- The steps of loading a project. -/
inductive Operation where
  | evaluate
  | build
  deriving DecidableEq, Repr

def Operation.name : Operation → String
  | .evaluate => "Evaluate"
  | .build => "Build"

/-- A length of time. -/
structure Elapsed where
  seconds : Nat
  nanoseconds : Nat
  deriving DecidableEq, Repr

/-- A step that has been done. -/
structure Progress where
  operation : Operation
  project : Path
  target : Option String
  deriving DecidableEq, Repr

/-- A text with spaces after it up to the width of a column. -/
def column (s : String) : String := s ++ "".pushn ' ' (15 - s.length)

/-- A number with zeros before it up to a width. -/
def zeroPadded (width n : Nat) : String :=
  let digits := toString n
  "".pushn '0' (width - digits.length) ++ digits

/-- Minutes, seconds, and tenths of microseconds. -/
def Elapsed.text (e : Elapsed) : String :=
  s!"{e.seconds / 60}:{zeroPadded 2 (e.seconds % 60)}.{zeroPadded 7 (e.nanoseconds / 100)}"

/-- The line for a step, with the time it took where that is wanted. -/
def Progress.line (p : Progress) (elapsed : Option Elapsed) : String :=
  let file := p.project.fileName.getD p.project.text
  let project := p.target.elim file fun target => s!"{file} ({target})"
  let time := elapsed.elim "" fun e => column e.text ++ " "
  s!"{column p.operation.name} {time}{project}"

end ResourceAudit
