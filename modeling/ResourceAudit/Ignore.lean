import ResourceAudit.Glob.Pattern
import ResourceAudit.Path

/-!
# ResourceAudit.Ignore

Sources that are left out.  An entry without wildcards names a file or a whole
directory relative to a base directory; an entry with wildcards is tried on the
full path and on the path relative to the base directory.
-/

namespace ResourceAudit

structure IgnoreSet where
  base : Path
  literals : List Path
  patterns : List Glob.Pattern
  deriving DecidableEq, Repr

/-- The set that ignores nothing. -/
def IgnoreSet.empty : IgnoreSet := ⟨⟨""⟩, [], []⟩

/-- What an entry with wildcards says: a pattern, or why it is none. -/
def readPattern? (entry : String) : Option (Except Glob.Fault Glob.Pattern) :=
  if Glob.hasWildcard entry then some (Glob.Pattern.ofText entry) else none

/-- The set of the given entries; an entry that is no valid pattern says
nothing. -/
def IgnoreSet.ofEntries (base : Path) (entries : List String) : IgnoreSet :=
  ⟨base, (entries.filter (!Glob.hasWildcard ·)).map base.join,
    (entries.filterMap readPattern?).filterMap Except.toOption⟩

/-- The entries that are no valid patterns, with what is wrong with them. -/
def invalidEntries (entries : List String) : List (String × Glob.Fault) :=
  entries.filterMap fun entry =>
    match readPattern? entry with
    | some (.error fault) => some (entry, fault)
    | _ => none

/-- Whether a path is left out. -/
def IgnoreSet.ignores (s : IgnoreSet) (p : Path) : Bool :=
  s.literals.any p.startsWith ||
    s.patterns.any fun pattern =>
      pattern.matches (withSlashes p.text) ||
        (p.stripPrefix s.base).any fun relative => pattern.matches (withSlashes relative.text)

end ResourceAudit
