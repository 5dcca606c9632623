import ArrayShape.Operand.Digest
import ArrayShape.Operand.Printer

/-!
# Shapes

A `Shape` is a flat sequence of operands. The last operand is the measure, the type of the
elements, and those before it are the dimensions. Two shapes are equal when their operands
are equal in order.
-/

namespace ArrayShape

/-- A description of an array: its dimensions, and then the type of its elements. -/
structure Shape (Name : Type) where
  operands : List (Operand Name)
deriving DecidableEq

namespace Shape

variable {Name : Type}

/-- Every operand except the last. -/
def dims (shape : Shape Name) : List (Operand Name) :=
  shape.operands.dropLast

/-- The last operand, which is the type of the elements. -/
def measure? (shape : Shape Name) : Option (Operand Name) :=
  shape.operands.getLast?

/-- The type variables of a shape, fields included, in order of appearance and with
repetitions. -/
def freeVars (shape : Shape Name) : List Name :=
  shape.operands.flatMap Operand.freeVars

/-- The packed size in bytes of one element, if the measure has a size. -/
def itemSize? (shape : Shape Name) : Option Nat :=
  shape.measure?.bind Operand.itemSize?

/-- The operands from position `start` up to position `stop`, if these are positions of the
shape in order. -/
def slice? (shape : Shape Name) (start stop : Nat) : Option (List (Operand Name)) :=
  if start ≤ stop ∧ stop ≤ shape.operands.length then
    some ((shape.operands.drop start).take (stop - start))
  else none

/-- The printed form: the printed operands with a comma and a space between each two. -/
def text (shape : Shape String) : String :=
  Operand.separated (shape.operands.map Operand.text)

/-- The data that tell a shape. -/
def digest (shape : Shape Name) : List (Datum Name) :=
  .length shape.operands.length :: shape.operands.flatMap Operand.digest

instance [Hashable Name] : Hashable (Shape Name) where
  hash shape := hash shape.digest

end Shape

end ArrayShape
