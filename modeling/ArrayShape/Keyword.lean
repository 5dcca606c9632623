/-!
# Keywords

The three words that construct a type from arguments in parentheses. They are reserved where
an operand may stand, and are ordinary names where a label may stand. `ofText?_text` and
`text_of_ofText?` say that a keyword and its text determine each other.
-/

namespace ArrayShape

/-- The type constructors of the notation. -/
inductive Keyword where
  | enum
  | record
  | var
deriving DecidableEq

namespace Keyword

/-- The keyword as it is written. -/
def text : Keyword → String
  | .enum => "Enum"
  | .record => "Record"
  | .var => "Var"

/-- Every keyword, in alphabetic order. -/
def all : List Keyword :=
  [.enum, .record, .var]

/-- The keyword that is written as the given text. -/
def ofText? (text : String) : Option Keyword :=
  all.find? (·.text == text)

/-- A keyword is found by its text. -/
@[simp] theorem ofText?_text (keyword : Keyword) : ofText? keyword.text = some keyword := by
  cases keyword <;> decide

/-- The keyword found by a text is written as that text. -/
theorem text_of_ofText? {text : String} {keyword : Keyword} (h : ofText? text = some keyword) :
    keyword.text = text := by
  simpa using List.find?_some h

end Keyword

end ArrayShape
