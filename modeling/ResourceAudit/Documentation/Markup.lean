import ResourceAudit.Text.Cut
import ResourceAudit.Text.Blank
import ResourceAudit.Xml.Reference

/-!
# ResourceAudit.Documentation.Markup

The documentation of one member as markup: a `member` element that carries the
documentation ID and holds the documentation lines.  The lines keep their
indentation relative to each other and lose what white space they share.
-/

namespace ResourceAudit.Documentation

open ResourceAudit.Text

/-- The number of bytes of white space a line begins with. -/
def indentation (line : List Char) : Nat := byteLength line - byteLength (trimStart line)

/-- The least indentation of the lines that are not blank. -/
def sharedIndentation (lines : List (List Char)) : Nat :=
  (((lines.filter (!isBlankText ·)).map indentation).min?).getD 0

/-- A line without its first bytes, or without all white space at its front if
these do not end between two characters, and without white space at its end. -/
def outdent (indent : Nat) (line : List Char) : List Char :=
  trimEnd ((dropBytes indent line).getD (trimStart line))

/-- The markup of a member with documentation lines. -/
def markupOf (id : List Char) (lines : List (List Char)) : List Char :=
  let indent := sharedIndentation lines
  "<member name=\"".toList ++ Xml.escape id ++ "\">\n".toList
    ++ lines.flatMap (fun line => "    ".toList ++ outdent indent line ++ ['\n'])
    ++ "</member>\n".toList

/-- The documentation of the member with the given ID; without lines there is
none. -/
def markup (id : String) (lines : List String) : String :=
  if lines.isEmpty then "" else .ofList (markupOf id.toList (lines.map String.toList))

end ResourceAudit.Documentation
