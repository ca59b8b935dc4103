import ResourceAudit.Glob.Pattern
import ResourceAudit.Text.Blank
import ResourceAudit.Text.Digit

/-!
# ResourceAudit.Config

The configuration of a run: where the toolchain is, and which sources are left
out.  A configuration can be written as JSON, and it can be invalid.
-/

namespace ResourceAudit

open ResourceAudit.Text

structure Config where
  /-- A toolchain directory, or a directory of installed toolchains. -/
  msbuildPath : Option String
  /-- Paths and patterns of sources that are never compiled. -/
  ignores : List String
  deriving DecidableEq, Repr

/-- The configuration of a run that is not configured. -/
def Config.default : Config := ⟨none, []⟩

/-! ## validity -/

/-- What makes a configuration invalid. -/
inductive Config.Flaw where
  | badPattern (pattern : String) (fault : Glob.Fault)
  | blankToolchain
  deriving DecidableEq, Repr

def Config.Flaw.message : Config.Flaw → String
  | .badPattern pattern fault =>
    s!"Invalid glob pattern in 'ignores': \"{pattern}\": {fault.message}"
  | .blankToolchain => "'msbuildPath' must not be empty"

/-- What makes a pattern invalid; a text without wildcards is no pattern. -/
def patternFlaw? (pattern : String) : Option Config.Flaw :=
  if Glob.hasWildcard pattern then
    match Glob.Pattern.ofText pattern with
    | .ok _ => none
    | .error fault => some (.badPattern pattern fault)
  else none

/-- The first flaw of a configuration: patterns come before the toolchain. -/
def Config.flaw? (c : Config) : Option Config.Flaw :=
  match c.ignores.findSome? patternFlaw? with
  | some flaw => some flaw
  | none => if c.msbuildPath.any (isBlankText ·.toList) then some .blankToolchain else none

/-! ## writing -/

/-- A character inside a JSON string. -/
def jsonChar : Char → List Char
  | '"' => ['\\', '"']
  | '\\' => ['\\', '\\']
  | '\x08' => ['\\', 'b']
  | '\x0c' => ['\\', 'f']
  | '\n' => ['\\', 'n']
  | '\r' => ['\\', 'r']
  | '\t' => ['\\', 't']
  | c =>
    if c.toNat < 0x20 then
      ['\\', 'u', '0', '0'] ++ (if c.toNat < 0x10 then ['0'] else []) ++ hex c.toNat
    else [c]

/-- A JSON string. -/
def jsonString (s : String) : String := .ofList ('"' :: s.toList.flatMap jsonChar ++ ['"'])

/-- The configuration as JSON, without a toolchain if there is none. -/
def Config.toJson (c : Config) : String :=
  let toolchain := c.msbuildPath.elim "" fun path => "\"msbuildPath\":" ++ jsonString path ++ ","
  let ignores := ",".intercalate (c.ignores.map jsonString)
  "\x7b" ++ toolchain ++ "\"ignores\":[" ++ ignores ++ "]\x7d"

end ResourceAudit
