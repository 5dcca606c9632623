import ArrayShape.Shape.Basic
import ArrayShape.Shape.CheckError
import ArrayShape.Tree.Basic

/-!
# Replacing names

`mapM` replaces the names in a term, in an operand or in an error by what a computation gives for
them, from left to right, and leaves everything else as it is. `textM` is the printed form of an
operand whose names are printed by a computation.
-/

namespace ArrayShape

variable {m : Type → Type} [Monad m] {Name Other : Type}

/-- The value that a computation gives, with the same range. -/
def Spanned.mapM (f : Name → m Other) (spanned : Spanned Name) : m (Spanned Other) :=
  return ⟨spanned.range, ← f spanned.value⟩

namespace Term

mutual
/-- The term with its names replaced. -/
def mapM (f : Name → m Other) : Term Name → m (Term Other)
  | .name range word => return .name range (← f word)
  | .number range value => return .number range value
  | .record range fields => return .record range (← mapFieldsM f fields)
  | .enum range values => return .enum range values
  | .var range lower upper => return .var range lower upper
  | .group range members => return .group range (← mapAllM f members)

/-- The terms with their names replaced. -/
def mapAllM (f : Name → m Other) : List (Term Name) → m (List (Term Other))
  | [] => return []
  | term :: rest => return (← term.mapM f) :: (← mapAllM f rest)

/-- The fields with their labels and the names in their types replaced. -/
def mapFieldsM (f : Name → m Other) : TermFields Name → m (TermFields Other)
  | [] => return []
  | (label, type) :: rest =>
    return (← label.mapM f, ← type.mapM f) :: (← mapFieldsM f rest)
end

/-- The field with its label and the names in its type replaced. -/
def mapFieldM (f : Name → m Other) (field : Spanned Name × Term Name) :
    m (Spanned Other × Term Other) :=
  return (← field.1.mapM f, ← field.2.mapM f)

end Term

/-- The tree with its names replaced. -/
def Tree.mapM (f : Name → m Other) (tree : Tree Name) : m (Tree Other) :=
  return ⟨← Term.mapAllM f tree.terms⟩

namespace Operand

mutual
/-- The operand with its names replaced. -/
def mapM (f : Name → m Other) : Operand Name → m (Operand Other)
  | .integer value => return .integer value
  | .typeVar name => return .typeVar (← f name)
  | .record fields => return .record (← mapFieldsM f fields)
  | .enum values => return .enum values
  | .var lower upper => return .var lower upper
  | .dtype scalar => return .dtype scalar

/-- The fields with their labels and the names in their types replaced. -/
def mapFieldsM (f : Name → m Other) : Fields Name → m (Fields Other)
  | [] => return []
  | (label, type) :: rest => return (← f label, ← type.mapM f) :: (← mapFieldsM f rest)
end

/-- The types with the names in them replaced. What the types are called stays. -/
def mapTypesM (f : Name → m Other) :
    List (String × Operand Name) → m (List (String × Operand Other))
  | [] => return []
  | (text, type) :: rest => return (text, ← type.mapM f) :: (← mapTypesM f rest)

mutual
/-- The printed form of an operand, with names printed by a computation. -/
def textM (f : Name → m String) : Operand Name → m String
  | .integer value => return Decimal.write value
  | .typeVar name => f name
  | .record fields => return call .record (← fieldTextsM f fields)
  | .enum values => return call .enum (values.map Decimal.write)
  | .var lower upper => return call .var [Decimal.write lower, Decimal.write upper]
  | .dtype scalar => return scalar.name

/-- The printed forms of fields, with names printed by a computation. -/
def fieldTextsM (f : Name → m String) : Fields Name → m (List String)
  | [] => return []
  | (label, type) :: rest =>
    return ((← f label) ++ "=" ++ (← type.textM f)) :: (← fieldTextsM f rest)
end

end Operand

namespace Shape

/-- The shape with its names replaced. -/
def mapM (f : Name → m Other) (shape : Shape Name) : m (Shape Other) :=
  return ⟨← shape.operands.mapM (Operand.mapM f)⟩

/-- The printed form of a shape, with names printed by a computation. -/
def textM (f : Name → m String) (shape : Shape Name) : m String :=
  return Operand.separated (← shape.operands.mapM (Operand.textM f))

end Shape

/-- The error with its labels replaced. -/
def CheckError.mapM (f : Name → m Other) : CheckError Name → m (CheckError Other)
  | .invertedBounds range lower upper => return .invertedBounds range lower upper
  | .repeatedLabels range labels => return .repeatedLabels range (← labels.mapM (Spanned.mapM f))
  | .notOneOperand range count => return .notOneOperand range count

end ArrayShape
