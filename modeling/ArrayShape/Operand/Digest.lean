import ArrayShape.Operand.Basic

/-!
# Hashing operands

The hash of an operand is the hash of its digest, the sequence of data that tells its variant
and contents. Lists are preceded by their length, and an element type is represented by its
name. Equality is decided without the digest; since an element type is determined by its name,
equal operands have equal digests and so equal hashes.
-/

namespace ArrayShape

/-- One piece of data in a digest. -/
inductive Datum (Name : Type) where
  /-- The position of a variant among the variants of its type. -/
  | variant (index : Nat)
  /-- A 64-bit word. -/
  | word (value : UInt64)
  /-- The length of the list that follows. -/
  | length (size : Nat)
  /-- A type variable or a label. -/
  | name (name : Name)
  /-- The name of an element type. -/
  | text (text : String)
deriving DecidableEq, Hashable

namespace Operand

variable {Name : Type}

mutual
/-- The data that tell an operand. -/
def digest : Operand Name → List (Datum Name)
  | .integer value => [.variant 0, .word value]
  | .typeVar name => [.variant 1, .name name]
  | .record fields => .variant 2 :: .length fields.length :: fieldsDigest fields
  | .enum values => .variant 3 :: .length values.length :: values.map .word
  | .var lower upper => [.variant 4, .word lower, .word upper]
  | .dtype scalar => [.variant 5, .text scalar.name]

/-- The data that tell the fields of a record. -/
def fieldsDigest : Fields Name → List (Datum Name)
  | [] => []
  | (label, type) :: rest => .name label :: type.digest ++ fieldsDigest rest
end

instance [Hashable Name] : Hashable (Operand Name) where
  hash operand := hash operand.digest

end Operand

end ArrayShape
