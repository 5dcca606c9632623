/-!
# Built-in element types

A `DType` is one of the fourteen scalar element types, with its canonical name, its kind and
its width in bytes. `DType.ofName?` finds a type by its canonical name or by an alias.
Names are distinct, so a type is determined by its name (`name_injective`), and every
canonical name finds its own type (`ofName?_name`).
-/

namespace ArrayShape

/-- How the values of an element type are represented. -/
inductive DTypeKind where
  | bool
  | int
  | uint
  | float
  | complex
  | object
deriving DecidableEq

/-- The word for a kind of element type. -/
def DTypeKind.name : DTypeKind → String
  | .bool => "Bool"
  | .int => "Int"
  | .uint => "UInt"
  | .float => "Float"
  | .complex => "Complex"
  | .object => "Object"

/-- The fixed-width scalar element types. `object` is a reference to a value of the host. -/
inductive DType where
  | bool
  | int8
  | int16
  | int32
  | int64
  | uint8
  | uint16
  | uint32
  | uint64
  | float32
  | float64
  | complex64
  | complex128
  | object
deriving DecidableEq

namespace DType

/-- Every element type, booleans first and references last. -/
def all : List DType :=
  [.bool, .int8, .int16, .int32, .int64, .uint8, .uint16, .uint32, .uint64, .float32, .float64,
   .complex64, .complex128, .object]

/-- The canonical name, which is also the printed form. -/
def name : DType → String
  | .bool => "bool"
  | .int8 => "int8"
  | .int16 => "int16"
  | .int32 => "int32"
  | .int64 => "int64"
  | .uint8 => "uint8"
  | .uint16 => "uint16"
  | .uint32 => "uint32"
  | .uint64 => "uint64"
  | .float32 => "float32"
  | .float64 => "float64"
  | .complex64 => "complex64"
  | .complex128 => "complex128"
  | .object => "object"

/-- The kind of representation. -/
def kind : DType → DTypeKind
  | .bool => .bool
  | .int8 | .int16 | .int32 | .int64 => .int
  | .uint8 | .uint16 | .uint32 | .uint64 => .uint
  | .float32 | .float64 => .float
  | .complex64 | .complex128 => .complex
  | .object => .object

/-- The width in bytes. References take eight. -/
def size : DType → Nat
  | .bool | .int8 | .uint8 => 1
  | .int16 | .uint16 => 2
  | .int32 | .uint32 | .float32 => 4
  | .int64 | .uint64 | .float64 | .complex64 | .object => 8
  | .complex128 => 16

/-- The name of an element type under the name of the family. -/
def describe (dtype : DType) : String :=
  "Dtype(" ++ dtype.name ++ ")"

/-- Alternative names of element types. -/
def aliases : List (String × DType) :=
  [("int", .int32), ("float", .float32), ("double", .float64), ("pyobject", .object),
   ("PyObject", .object)]

/-- Every name of an element type, canonical names first. -/
def entries : List (String × DType) :=
  all.map (fun dtype => (dtype.name, dtype)) ++ aliases

/-- The element type with the given canonical name or alias. -/
def ofName? (text : String) : Option DType :=
  entries.lookup text

/-- Every element type is listed. -/
theorem mem_all (dtype : DType) : dtype ∈ all := by
  cases dtype <;> decide

/-- Element types with the same name are the same. -/
theorem name_injective {first second : DType} (h : first.name = second.name) :
    first = second := by
  revert h
  cases first <;> cases second <;> decide

/-- No name is listed twice. -/
theorem entries_nodup : (entries.map Prod.fst).Nodup := by
  decide

/-- A canonical name finds its own type. -/
theorem ofName?_name (dtype : DType) : ofName? dtype.name = some dtype := by
  cases dtype <;> decide

end DType

end ArrayShape
