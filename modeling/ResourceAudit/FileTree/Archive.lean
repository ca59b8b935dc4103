import ResourceAudit.FileTree
import ResourceAudit.Text.Digit

/-!
# ResourceAudit.FileTree.Archive

File trees as they come in an archive, that is in blocks of 512 bytes: for each
entry a header, which says what the entry is and how many bytes it has, and then
the blocks that hold these bytes.  An entry of its own carries a name that is too
long for the header after it.  Names are relative to the root of the tree.
-/

namespace ResourceAudit

open ResourceAudit.Text

namespace Archive

def blockSize : Nat := 512

/-- The bytes of a field up to the first zero among them, as text. -/
def fieldText (bytes : ByteArray) (start size : Nat) : String :=
  let field := (bytes.extract start (start + size)).toList.takeWhile (· != 0)
  (String.fromUTF8? ⟨field.toArray⟩).getD ""

/-- What the header of an entry says about it. -/
structure Header where
  name : String
  /-- The number of bytes the entry has. -/
  size : Nat
  /-- The character that stands for what the entry is. -/
  type : UInt8
  /-- Where the entry leads if it is a link. -/
  target : String
  deriving Repr

/-- The header at an offset; none where a name is missing, as in the blocks that
end an archive. -/
def Header.at? (bytes : ByteArray) (offset : Nat) : Option Header :=
  let name := fieldText bytes offset 100
  let dir := if bytes[offset + 262]?.any (· == 0) then fieldText bytes (offset + 345) 155 else ""
  let digits := (fieldText bytes (offset + 124) 12).toList.filter Char.isDigit
  let type := bytes[offset + 156]?.getD 0
  let target := fieldText bytes (offset + 157) 100
  if name.isEmpty then none
  else some ⟨if dir.isEmpty then name else dir ++ "/" ++ name,
    (digitsValue? 8 digits).getD 0, type, target⟩

/-- The number of blocks that so many bytes fill. -/
def blocks (size : Nat) : Nat := (size + blockSize - 1) / blockSize

/-- The node an entry stands for, none if it is neither a file nor a link nor a
directory. -/
def Header.node? (h : Header) (contents : ByteArray) : Option Node :=
  if h.type = '0'.toUInt8 ∨ h.type = 0 then some (.file contents)
  else if h.type = '2'.toUInt8 then some (.link h.target)
  else if h.type = '5'.toUInt8 then some (.dir [])
  else none

/-- The place a name stands for. -/
def placeOf (name : String) : Place :=
  ((fields (· == '/') name.toList).filter fun piece => !piece.isEmpty && piece != ['.']).map
    String.ofList

/-- Puts the entries of at most so many blocks into a tree, from an offset on.
`longName` is the name that the entry before gives the next one. -/
def addEntries (bytes : ByteArray) : Nat → Nat → Option String → Node → Node
  | 0, _, _, root => root
  | fuel + 1, offset, longName, root =>
    match Header.at? bytes offset with
    | none => root
    | some h =>
      let start := offset + blockSize
      let next := start + blocks h.size * blockSize
      if h.type = 'L'.toUInt8 then
        addEntries bytes fuel next (some (fieldText bytes start h.size)) root
      else
        let place := placeOf (longName.getD h.name)
        let root := match h.node? (bytes.extract start (start + h.size)), root.at? place with
          | none, _ | some (.dir _), some _ => root
          | some node, _ => root.put node place
        addEntries bytes fuel next none root

end Archive

/-- The tree an archive holds, with the given working directory if that is one
of its directories and with its root otherwise. -/
def FileTree.ofArchive (bytes : ByteArray) (here : Path) : FileTree :=
  let root := Archive.addEntries bytes (Archive.blocks bytes.size) 0 none (.dir [])
  match FileTree.resolve ⟨root, []⟩ true here with
  | .ok (place, .dir _) => ⟨root, place⟩
  | _ => ⟨root, []⟩

end ResourceAudit
