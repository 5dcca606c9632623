import ArrayShape.ByteRange
import ArrayShape.Text.Lines

/-!
# Named texts

A `SourceFile` is a text with a name, and a `Place` is a line and a column in it, both counted
from one.
-/

namespace ArrayShape

/-- A text with a name. -/
structure SourceFile where
  name : String
  text : String
deriving DecidableEq

/-- A line and a column of a named text. -/
structure Place where
  file : String
  line : Nat
  column : Nat
deriving DecidableEq

/-- A place as it is written in headings. -/
def Place.text (place : Place) : String :=
  place.file ++ ":" ++ toString place.line ++ ":" ++ toString place.column

/-- The place where a range of a file starts. -/
def SourceFile.place (file : SourceFile) (range : ByteRange) : Place :=
  let (line, column) := Text.lineAndColumn file.text range.start
  ⟨file.name, line, column⟩

end ArrayShape
