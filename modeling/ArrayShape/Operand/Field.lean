import ArrayShape.Operand.Basic
import ArrayShape.Text.EditDistance

/-!
# Looking up fields

A field is looked up by its label, and the first field with that label is the one found. A
failed look-up suggests the label that is spelled most like the requested one, if two edits of
a character are enough to get from one to the other; among equally close labels the earliest
is suggested.
-/

namespace ArrayShape

/-- A look-up of a label that no field of the record has. -/
structure FieldNotFound where
  name : String
  /-- A label of the record that is spelled similarly. -/
  suggestion : Option String
deriving DecidableEq

/-- The wording of a failed look-up. -/
def FieldNotFound.message (failure : FieldNotFound) : String :=
  "no field named `" ++ failure.name ++ "` in record"

namespace Operand

/-- The largest distance at which a label is suggested. -/
def maxSuggestionDistance : Nat := 2

/-- The number of characters to insert, delete or replace to get from one name to another. -/
def nameDistance (first second : String) : Nat :=
  Text.editDistance first.toList second.toList

/-- The label closest to a name, the earliest of equally close ones, if it is close enough. -/
def suggest? (name : String) (labels : List String) : Option String :=
  labels.filter (nameDistance name · ≤ maxSuggestionDistance) |>.minOn? (nameDistance name)

/-- The type of the first field with a label. -/
def field (fields : Fields String) (name : String) : Except FieldNotFound (Operand String) :=
  match fields.lookup name with
  | some type => .ok type
  | none => .error ⟨name, suggest? name (fields.map Prod.fst)⟩

/-- The operand reached by looking up labels one after another, or nothing where a label is
looked up in an operand without fields. -/
def descend : Operand String → List String → Except FieldNotFound (Option (Operand String))
  | operand, [] => .ok (some operand)
  | .record fields, name :: path =>
    match field fields name with
    | .ok type => type.descend path
    | .error failure => .error failure
  | _, _ :: _ => .ok none

end Operand

end ArrayShape
