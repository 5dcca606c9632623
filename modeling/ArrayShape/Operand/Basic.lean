import ArrayShape.DType

/-!
# Operands of a shape

An `Operand` is one entry of a shape: an integer, a type variable, a record with labelled
fields, an enumeration, a bounded range, or a built-in element type. Type variables and labels
are drawn from a type `Name`, which is `String` for shapes that are read and printed. Equality
of operands is decided entry by entry, with fields and enumerants in order.
-/

namespace ArrayShape

/-- One entry of a shape. -/
inductive Operand (Name : Type) where
  /-- A fixed size, or a fixed value. -/
  | integer (value : UInt64)
  /-- A name that stands for a size or a type. -/
  | typeVar (name : Name)
  /-- A record type, with its fields in the order of declaration. -/
  | record (fields : List (Name × Operand Name))
  /-- A type with finitely many integer values. -/
  | enum (values : List UInt64)
  /-- A size between two bounds, both included. -/
  | var (lower upper : UInt64)
  /-- A built-in element type. -/
  | dtype (dtype : DType)

/-- The fields of a record: labels, each with the type of its values. -/
abbrev Fields (Name : Type) := List (Name × Operand Name)

namespace Operand

variable {Name : Type}

mutual
/-- Decides whether two operands are equal. -/
def decideEq [DecidableEq Name] (first second : Operand Name) : Decidable (first = second) :=
  match first, second with
  | .integer x, .integer y => decidable_of_iff (x = y) (by simp)
  | .typeVar x, .typeVar y => decidable_of_iff (x = y) (by simp)
  | .record xs, .record ys =>
    have := decideFieldsEq xs ys
    decidable_of_iff (xs = ys) (by simp)
  | .enum xs, .enum ys => decidable_of_iff (xs = ys) (by simp)
  | .var a b, .var c d => decidable_of_iff (a = c ∧ b = d) (by simp)
  | .dtype x, .dtype y => decidable_of_iff (x = y) (by simp)
  | .integer _, .typeVar _ | .integer _, .record _ | .integer _, .enum _ | .integer _, .var _ _
  | .integer _, .dtype _ | .typeVar _, .integer _ | .typeVar _, .record _ | .typeVar _, .enum _
  | .typeVar _, .var _ _ | .typeVar _, .dtype _ | .record _, .integer _ | .record _, .typeVar _
  | .record _, .enum _ | .record _, .var _ _ | .record _, .dtype _ | .enum _, .integer _
  | .enum _, .typeVar _ | .enum _, .record _ | .enum _, .var _ _ | .enum _, .dtype _
  | .var _ _, .integer _ | .var _ _, .typeVar _ | .var _ _, .record _ | .var _ _, .enum _
  | .var _ _, .dtype _ | .dtype _, .integer _ | .dtype _, .typeVar _ | .dtype _, .record _
  | .dtype _, .enum _ | .dtype _, .var _ _ => isFalse nofun

/-- Decides whether two lists of fields are equal. -/
def decideFieldsEq [DecidableEq Name] (first second : Fields Name) : Decidable (first = second) :=
  match first, second with
  | [], [] => isTrue rfl
  | (x, s) :: xs, (y, t) :: ys =>
    have := decideEq s t
    have := decideFieldsEq xs ys
    decidable_of_iff (x = y ∧ s = t ∧ xs = ys) (by simp [and_assoc])
  | [], _ :: _ | _ :: _, [] => isFalse nofun
end

instance [DecidableEq Name] : DecidableEq (Operand Name) := decideEq

/-- The fields of a record, and nothing for any other operand. -/
def fields? : Operand Name → Option (Fields Name)
  | .record fields => some fields
  | _ => none

/-- An operand that can stand for the size of a dimension: an integer, a type variable or a
bounded range. -/
def isDimension : Operand Name → Bool
  | .integer _ | .typeVar _ | .var _ _ => true
  | .record _ | .enum _ | .dtype _ => false

/-- The test whether a value belongs to a bounded range or an enumeration, and nothing for any
other operand. -/
def membership? : Operand Name → Option (UInt64 → Bool)
  | .var lower upper => some fun value => lower ≤ value && value ≤ upper
  | .enum values => some fun value => values.contains value
  | _ => none

mutual
/-- The packed size in bytes of a value of the operand, if every type in it is built in. -/
def itemSize? : Operand Name → Option Nat
  | .dtype scalar => some scalar.size
  | .record fields => fieldsSize? fields
  | .integer _ | .typeVar _ | .enum _ | .var _ _ => none

/-- The sum of the sizes of fields, if each has a size. -/
def fieldsSize? : Fields Name → Option Nat
  | [] => some 0
  | (_, type) :: rest =>
    match type.itemSize?, fieldsSize? rest with
    | some first, some others => some (first + others)
    | _, _ => none
end

mutual
/-- The type variables of an operand, in order of appearance and with repetitions. -/
def freeVars : Operand Name → List Name
  | .typeVar name => [name]
  | .record fields => fieldsFreeVars fields
  | .integer _ | .enum _ | .var _ _ | .dtype _ => []

/-- The type variables of the types of fields, in order of appearance and with repetitions. -/
def fieldsFreeVars : Fields Name → List Name
  | [] => []
  | (_, type) :: rest => type.freeVars ++ fieldsFreeVars rest
end

/-- The composite types that have a name of their own. -/
def named : List (String × Operand String) :=
  [("RGBA", .record [("R", .dtype .int16), ("G", .dtype .int16), ("B", .dtype .int16),
    ("A", .dtype .int8)])]

/-- The composite type with the given name. -/
def ofTypeName? (text : String) : Option (Operand String) :=
  named.lookup text

/-- The operand that a bare name denotes: an element type, or else a composite type with that
name, or else a type variable. -/
def ofName (text : String) : Operand String :=
  match DType.ofName? text with
  | some scalar => .dtype scalar
  | none => (ofTypeName? text).getD (.typeVar text)

/-- Every name that denotes an element type or a composite type, in increasing order. -/
def knownNames : List String :=
  (DType.entries.map Prod.fst ++ named.map Prod.fst).mergeSort

end Operand

end ArrayShape
