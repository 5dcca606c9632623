/-!
# Diagnostics

A `Diagnostic` is a report for the user: how severe it is, what happened, the parts of a text
it is about, and further notes. Its labels are located at values of a type `Location`: byte
ranges where the diagnostic is made, and places in a named file where it is rendered.
-/

namespace ArrayShape

/-- How severe a report is. -/
inductive Severity where
  | bug
  | error
  | warning
  | note
  | help
deriving DecidableEq

namespace Severity

/-- The word for a severity. -/
def text : Severity → String
  | .bug => "bug"
  | .error => "error"
  | .warning => "warning"
  | .note => "note"
  | .help => "help"

/-- Bugs and errors are failures; the milder reports are not. -/
def isFailure : Severity → Bool
  | .bug | .error => true
  | .warning | .note | .help => false

end Severity

/-- Whether a label marks the cause of a report or something related to it. -/
inductive LabelRole where
  | primary
  | secondary
deriving DecidableEq

/-- A located remark. The message may be empty. -/
structure Label (Location : Type) where
  role : LabelRole
  location : Location
  message : String
deriving DecidableEq

/-- A report for the user. -/
structure Diagnostic (Location : Type) where
  severity : Severity
  message : String
  labels : List (Label Location)
  notes : List String
deriving DecidableEq

namespace Diagnostic

variable {Location Other : Type}

/-- An error with labels and notes. -/
def error (message : String) (labels : List (Label Location)) (notes : List String) :
    Diagnostic Location :=
  ⟨.error, message, labels, notes⟩

/-- A report without labels. -/
def plain (severity : Severity) (message : String) (notes : List String) : Diagnostic Location :=
  ⟨severity, message, [], notes⟩

/-- The same report with each label located elsewhere. -/
def relocate (move : Location → Other) (diagnostic : Diagnostic Location) : Diagnostic Other :=
  ⟨diagnostic.severity, diagnostic.message,
    diagnostic.labels.map fun label => ⟨label.role, move label.location, label.message⟩,
    diagnostic.notes⟩

/-- The locations of the primary labels, in order. -/
def primaryLocations (diagnostic : Diagnostic Location) : List Location :=
  diagnostic.labels.filter (·.role = .primary) |>.map (·.location)

end Diagnostic

/-- A label at the cause of a report. -/
def Label.primary {Location : Type} (location : Location) (message : String) : Label Location :=
  ⟨.primary, location, message⟩

/-- A label at something related to a report. -/
def Label.secondary {Location : Type} (location : Location) (message : String) :
    Label Location :=
  ⟨.secondary, location, message⟩

end ArrayShape
