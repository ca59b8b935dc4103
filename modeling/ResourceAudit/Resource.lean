import ResourceAudit.Text.Blank

/-!
# ResourceAudit.Resource

Resource entries, the table that keeps the first value of each name, and the
groups of names that share a value.
-/

namespace ResourceAudit

open ResourceAudit.Text

/-- A resource with its text. -/
structure Entry where
  /-- The documentation ID of the member that stands for the resource. -/
  name : String
  value : String
  deriving DecidableEq, Repr

/-- Whether the name or the value is blank. -/
def Entry.isBlank (e : Entry) : Bool := isBlankText e.name.toList || isBlankText e.value.toList

/-- Names that share a value. -/
structure Group where
  value : String
  names : List String
  deriving DecidableEq, Repr

/-! ## tables -/

/-- Entries in the order in which they were added. -/
structure Table where
  entries : List Entry
  deriving DecidableEq, Repr

def Table.empty : Table := ⟨[]⟩

def Table.names (t : Table) : List String := t.entries.map (·.name)

/-- Whether an entry may be added: it is not blank and its name is new. -/
def Table.admits (t : Table) (e : Entry) : Bool := !e.isBlank && !t.names.contains e.name

/-- Adds an entry that may be added, and leaves the table alone for any other. -/
def Table.insert (t : Table) (e : Entry) : Table := if t.admits e then ⟨t.entries ++ [e]⟩ else t

def Table.size (t : Table) : Nat := t.entries.length

/-- The table of entries that are added one after the other. -/
def Table.ofEntries (es : List Entry) : Table := es.foldl Table.insert Table.empty

/-! ## groups -/

/-- Adds a name to the group of its value, or begins a new group. -/
def addToGroups (groups : List Group) (e : Entry) : List Group :=
  match groups with
  | [] => [⟨e.value, [e.name]⟩]
  | g :: rest =>
    if g.value = e.value then ⟨g.value, g.names ++ [e.name]⟩ :: rest
    else g :: addToGroups rest e

/-- The entries of a table by their value, in the order in which the values come
first. -/
def Table.groups (t : Table) : List Group := t.entries.foldl addToGroups []

/-- The values that more than one name has. -/
def Table.duplicates (t : Table) : List Group := t.groups.filter fun g => 1 < g.names.length

end ResourceAudit
