/-
Messages that point into a source text.

A diagnostic is a text and a place.  It can be shown on one line, or with the line of the
source it points into and a caret below the place.  The caret is moved to its column by a width,
and a column further out than widths go cannot be shown that way.
-/
import QueryBatching.Source.Lines
import QueryBatching.Source.Position
import QueryBatching.Text.Blank

namespace QueryBatching

/-- A message about a place in a source text. -/
structure Diagnostic where
  text : String
  position : Position
deriving DecidableEq, Repr, Inhabited

namespace Diagnostic

/-- The message on one line. -/
def oneLine (diagnostic : Diagnostic) : String :=
  diagnostic.position.text ++ ": error: " ++ diagnostic.text

/--
The line of the source under its number, with a caret below the place.  There is none where the
column is wider than any text can be; the number of a line never is.
-/
def snippet? (position : Position) (line : String) : Option String :=
  let number := toString (position.line + 1)
  let width := max 2 number.length
  let margin := Text.alignRight width ""
  (Text.alignRight? position.column "").map fun indent =>
    margin ++ " |\n" ++
      Text.alignRight width number ++ " | " ++ line ++ "\n" ++
      margin ++ " | " ++ indent ++ "^\n"

/-- The first lines of the message over several lines: what it says and about which place. -/
def heading (diagnostic : Diagnostic) : String :=
  "error: " ++ diagnostic.text ++ "\n  --> <input>:" ++ diagnostic.position.text ++ "\n"

/--
The message over several lines.  The snippet is left out where the source has no such line, and
there is no message at all where there is a line and no snippet of it.
-/
def detailed? (diagnostic : Diagnostic) (source? : Option String) : Option String :=
  match source?.bind (Source.line? · diagnostic.position.line) with
  | some line => (snippet? diagnostic.position line).map (diagnostic.heading ++ ·)
  | none => some diagnostic.heading

end Diagnostic

end QueryBatching
