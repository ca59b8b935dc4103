import ResourceAudit.FileTree.Archive
import ResourceAudit.Run

/-!
# ResourceAudit.Main

The command line.  The files a run may look at arrive on standard input as an
archive, such as `tar` writes it.
-/

namespace ResourceAudit

/-- The variables of the environment that a run goes by. -/
def environmentVariables : List String := ["DOTNET_ROOT", "PATH", "HOME", "USERPROFILE"]

/-- The values of variables that are set. -/
def readEnvironment (names : List String) : IO Environment :=
  names.filterMapM fun name => do return (← IO.getEnv name).map fun value => (name, value)

/-- What a stream holds, after what has been read of it. -/
partial def readAll (stream : IO.FS.Stream) (before : ByteArray) : IO ByteArray := do
  let chunk ← stream.read 65536
  if chunk.isEmpty then return before
  readAll stream (before ++ chunk)

end ResourceAudit

open ResourceAudit

def main (words : List String) : IO UInt32 := do
  match Arguments.ofWords words with
  | .error refusal =>
    if refusal.code = 0 then IO.print refusal.message else IO.eprint refusal.message
    return refusal.code.toUInt32
  | .ok arguments =>
    let here := (← IO.getEnv "PWD").getD "/"
    let tree := FileTree.ofArchive (← readAll (← IO.getStdin) .empty) ⟨here⟩
    let outcome := run tree (← readEnvironment environmentVariables) arguments
    IO.print outcome.stdout
    IO.eprint outcome.stderr
    return outcome.status.code.toUInt32
