import ArrayShape.Diagnostic
import ArrayShape.SourceFile
import ArrayShape.Text.Lines

/-!
# Rendering diagnostics

A report starts with one heading for each primary label: the place of the label, the severity
and the message. A report without a primary label has one heading without a place. In medium
style the notes follow, the first line of each behind an equals sign and the others indented. Left
out are the rich display, in which every label is shown with the lines of the text that it marks and
its message, and colours.
-/

namespace ArrayShape

/-- How much of a report is rendered: its headings and notes, or its headings alone. The rich
display with the marked lines of the text is left out, and the messages of labels with it. -/
inductive Style where
  | medium
  | short
deriving DecidableEq

namespace Diagnostic

/-- The severity and message of a report. -/
def title {Location : Type} (diagnostic : Diagnostic Location) : String :=
  diagnostic.severity.text ++ ": " ++ diagnostic.message

/-- The headings of a report. -/
def headings (diagnostic : Diagnostic Place) : List String :=
  match diagnostic.primaryLocations with
  | [] => [diagnostic.title]
  | places => places.map fun place => place.text ++ ": " ++ diagnostic.title

/-- The lines of a note as they are rendered. A note without lines renders as nothing. -/
def noteLines (note : String) : List String :=
  match Text.lines note with
  | [] => []
  | first :: others => (" = " ++ first) :: others.map ("   " ++ ·)

/-- The rendered text of a report, every line with a line feed. -/
def render (style : Style) (diagnostic : Diagnostic Place) : String :=
  let notes :=
    match style with
    | .medium => diagnostic.notes.flatMap noteLines
    | .short => []
  String.join ((diagnostic.headings ++ notes).map (· ++ "\n"))

end Diagnostic

end ArrayShape
