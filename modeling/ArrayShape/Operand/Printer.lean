import ArrayShape.Keyword
import ArrayShape.Operand.Basic
import ArrayShape.Text.Decimal

/-!
# Printing operands

The printed form of an operand: words in decimal without leading zeros, names and element
types as they are called, and constructors with their arguments in parentheses, separated by
a comma and a space. A field is its label, an equals sign and its type, with no space.
-/

namespace ArrayShape.Operand

/-- Texts with a comma and a space between each two. -/
def separated (parts : List String) : String :=
  ", ".intercalate parts

/-- A keyword applied to printed arguments. -/
def call (keyword : Keyword) (arguments : List String) : String :=
  keyword.text ++ "(" ++ separated arguments ++ ")"

mutual
/-- The printed form of an operand. -/
def text : Operand String → String
  | .integer value => Decimal.write value
  | .typeVar name => name
  | .record fields => call .record (fieldTexts fields)
  | .enum values => call .enum (values.map Decimal.write)
  | .var lower upper => call .var [Decimal.write lower, Decimal.write upper]
  | .dtype scalar => scalar.name

/-- The printed forms of fields. -/
def fieldTexts : Fields String → List String
  | [] => []
  | (label, type) :: rest => (label ++ "=" ++ type.text) :: fieldTexts rest
end

/-- The text of an operand that is a single numeral or name, and nothing for any other
operand. -/
def atom? : Operand String → Option String
  | .integer value => some (Decimal.write value)
  | .typeVar name => some name
  | .record _ | .enum _ | .var _ _ | .dtype _ => none

/-- The printed form of a field is its label, an equals sign and its printed type. -/
theorem fieldTexts_eq_map (fields : Fields String) :
    fieldTexts fields = fields.map fun (label, type) => label ++ "=" ++ type.text := by
  induction fields with
  | nil => rfl
  | cons field rest ih => simp [fieldTexts, ih]

/-- Where an operand is a single numeral or name, that is its printed form. -/
theorem text_eq_of_atom? {operand : Operand String} {atom : String}
    (h : operand.atom? = some atom) : operand.text = atom := by
  cases operand <;> simp_all [atom?, text]

end ArrayShape.Operand
