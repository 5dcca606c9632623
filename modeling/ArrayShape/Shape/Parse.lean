import ArrayShape.Shape.OfTree
import ArrayShape.Tree.Parser

/-!
# Reading a shape from a text

`Shape.parse` reads the terms of a text and then the shape that they describe. A text that is
not well formed fails before any check of what it describes.
-/

namespace ArrayShape

/-- Why a text gives no shape. -/
inductive Error where
  /-- The text is not well formed. -/
  | malformed (error : ParseError)
  /-- The text is well formed and describes no valid shape. -/
  | invalid (error : CheckError String)
deriving DecidableEq

namespace Error

/-- The part of the text that is at fault. -/
def range : Error → ByteRange
  | .malformed error => error.range
  | .invalid error => error.range

/-- The text is not well formed. -/
def isMalformed : Error → Bool
  | .malformed _ => true
  | .invalid _ => false

/-- The wording of an error. -/
def message : Error → String
  | .malformed error => error.message
  | .invalid error => error.message

/-- The report of an error. -/
def diagnostic : Error → Diagnostic ByteRange
  | .malformed error => error.diagnostic
  | .invalid error => error.diagnostic

end Error

namespace Shape

/-- The shape that a tree of texts describes, with names of types resolved. -/
def resolve (options : Options) (tree : Tree String) :
    Except (CheckError String) (Shape String) :=
  ofTree options Operand.ofName tree

/-- Reads the shape that a text describes. A caller must give at most `maxSourceSize` bytes, as for
`Lexeme.ofText`; a session reports a longer text and does not read it. -/
def parse (options : Options) (source : String) : Except Error (Shape String) :=
  match Tree.parse source with
  | .error error => .error (.malformed error)
  | .ok tree =>
    match resolve options tree with
    | .error error => .error (.invalid error)
    | .ok shape => .ok shape

end Shape

end ArrayShape
