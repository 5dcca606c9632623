import ArrayShape.ByteRange
import ArrayShape.Diagnostic

/-!
# Texts that describe no valid shape

A `CheckError` is the reason why a text that is well formed describes no valid shape, with the
place where this showed. Labels are drawn from a type `Name`; `message` and `diagnostic` give
the wording for labels that are texts.
-/

namespace ArrayShape

/-- Why a tree of terms describes no valid shape. -/
inductive CheckError (Name : Type) where
  /-- A bounded range whose lower bound is above its upper bound. -/
  | invertedBounds (range : ByteRange) (lower upper : UInt64)
  /-- A record with every label in it that an earlier field has too. -/
  | repeatedLabels (range : ByteRange) (labels : List (Spanned Name))
  /-- A parenthesized type of a field that does not hold exactly one operand. -/
  | notOneOperand (range : ByteRange) (count : Nat)
deriving DecidableEq

namespace CheckError

variable {Name : Type}

/-- The part of the text that is at fault. -/
def range : CheckError Name → ByteRange
  | .invertedBounds range _ _ | .repeatedLabels range _ | .notOneOperand range _ => range

/-- The wording of an error. -/
def message : CheckError Name → String
  | .invertedBounds _ _ _ => "lower bound of range is greater than its upper bound"
  | .repeatedLabels _ _ => "duplicate labels found in record"
  | .notOneOperand _ _ => "record field type must be a single operand"

/-- The report of an error. Each repetition of a label is marked, and the note names each
repeated label once. -/
def diagnostic (error : CheckError String) : Diagnostic ByteRange :=
  match error with
  | .invertedBounds range lower upper =>
    .error error.message [.primary range "empty range"]
      ["expected a lower bound of at most " ++ toString upper.toNat ++ ", found " ++
        toString lower.toNat]
  | .repeatedLabels range labels =>
    .error error.message
      ((labels.map fun label => .primary label.range "duplicate field") ++
        [.secondary range "the record type"])
      ["duplicate fields " ++ ", ".intercalate
        ((labels.map (·.value)).eraseDups.map fun label => "`" ++ label ++ "`")]
  | .notOneOperand range count =>
    .error error.message [.primary range ("found " ++ toString count ++ " operands")]
      ["parenthesized groups are only spliced into operand lists"]

end CheckError

end ArrayShape
