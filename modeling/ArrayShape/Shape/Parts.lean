import ArrayShape.Shape.Basic

/-!
# The parts of a shape

The parts of a shape are its operands and, wherever an operand is a record, the parts of the types
of its fields. `recordDepth` is the greatest number of records among them that lie one inside
another, and `innerParts` are the parts that a number of records enclose.
-/

namespace ArrayShape

variable {Name : Type}

namespace Operand

mutual
/-- An operand and all the operands inside it. -/
def parts : Operand Name → List (Operand Name)
  | .record fields => .record fields :: fieldsParts fields
  | operand => [operand]

/-- The types of fields, each with all the operands inside it. -/
def fieldsParts : Fields Name → List (Operand Name)
  | [] => []
  | (_, type) :: rest => type.parts ++ fieldsParts rest
end

mutual
/-- The greatest number of records that lie one inside another in an operand. -/
def recordDepth : Operand Name → Nat
  | .record fields => fieldsRecordDepth fields + 1
  | .integer _ | .typeVar _ | .enum _ | .var _ _ | .dtype _ => 0

/-- The greatest depth of the types of fields. -/
def fieldsRecordDepth : Fields Name → Nat
  | [] => 0
  | (_, type) :: rest => max type.recordDepth (fieldsRecordDepth rest)
end

mutual
/-- The parts of an operand that at least `count` records of it enclose. -/
def innerParts (operand : Operand Name) (count : Nat) : List (Operand Name) :=
  match operand, count with
  | operand, 0 => operand.parts
  | .record fields, outer + 1 => fieldsInnerParts fields outer
  | .integer _, _ + 1 | .typeVar _, _ + 1 | .enum _, _ + 1 | .var _ _, _ + 1 | .dtype _, _ + 1 => []

/-- The parts of the types of fields that at least `count` records of these types enclose. -/
def fieldsInnerParts (fields : Fields Name) (count : Nat) : List (Operand Name) :=
  match fields with
  | [] => []
  | (_, type) :: rest => type.innerParts count ++ fieldsInnerParts rest count
end

/-- An operand is a part of itself. -/
theorem mem_parts_self (operand : Operand Name) : operand ∈ operand.parts := by
  cases operand <;> simp [parts]

end Operand

namespace Shape

/-- All the operands of a shape, at any depth. -/
def parts (shape : Shape Name) : List (Operand Name) :=
  shape.operands.flatMap Operand.parts

/-- The operands of a shape that at least `count` records enclose. -/
def innerParts (shape : Shape Name) (count : Nat) : List (Operand Name) :=
  shape.operands.flatMap (Operand.innerParts · count)

/-- The greatest number of records that lie one inside another in a shape. -/
def recordDepth (shape : Shape Name) : Nat :=
  (shape.operands.map Operand.recordDepth).foldr max 0

end Shape

end ArrayShape
