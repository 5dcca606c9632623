import ArrayShape.ByteRange

/-!
# Terms as they are written

A `Term` is an operand as it stands in a text: names are not yet resolved, parenthesized
groups are kept, and every part has its range. A `Tree` is the whole text, a list of terms.
Names and labels are drawn from a type `Name`, which is `String` for a tree that was read.
-/

namespace ArrayShape

/-- An operand as it is written. -/
inductive Term (Name : Type) where
  | name (range : ByteRange) (name : Name)
  | number (range : ByteRange) (value : UInt64)
  | record (range : ByteRange) (fields : List (Spanned Name × Term Name))
  | enum (range : ByteRange) (values : List (Spanned UInt64))
  | var (range : ByteRange) (lower upper : Spanned UInt64)
  /-- Operands in parentheses. -/
  | group (range : ByteRange) (members : List (Term Name))

/-- The fields of a record as they are written. -/
abbrev TermFields (Name : Type) := List (Spanned Name × Term Name)

/-- The range of a term, from its first token to its last. -/
def Term.range {Name : Type} : Term Name → ByteRange
  | .name range _ | .number range _ | .record range _ | .enum range _ | .var range _ _
  | .group range _ => range

/-- A whole text: the terms between its commas. -/
structure Tree (Name : Type) where
  terms : List (Term Name)

/-- The range that covers every term of a tree. -/
def Tree.range {Name : Type} (tree : Tree Name) : ByteRange :=
  match tree.terms with
  | [] => .empty 0
  | first :: rest => rest.foldl (fun covered term => covered.merge term.range) first.range

end ArrayShape
