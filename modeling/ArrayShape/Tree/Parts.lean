import ArrayShape.Tree.Basic

/-!
# The parts of a tree

The parts of a term are the term and, wherever a part is a group or a record, the parts of its
members or of the types of its fields. `children` are the ranges that lie directly inside a term,
in the order of the text. `move` puts every offset in a term to another place.
-/

namespace ArrayShape

variable {Name : Type}

/-- The value with its offsets where a function puts them. -/
def Spanned.move {α : Type} (place : Nat → Nat) (spanned : Spanned α) : Spanned α :=
  ⟨spanned.range.move place, spanned.value⟩

namespace Term

mutual
/-- A term and all the terms inside it. -/
def parts : Term Name → List (Term Name)
  | .record range fields => .record range fields :: fieldsParts fields
  | .group range members => .group range members :: membersParts members
  | term => [term]

/-- Terms, each with all the terms inside it. -/
def membersParts : List (Term Name) → List (Term Name)
  | [] => []
  | member :: rest => member.parts ++ membersParts rest

/-- The types of fields, each with all the terms inside it. -/
def fieldsParts : TermFields Name → List (Term Name)
  | [] => []
  | (_, type) :: rest => type.parts ++ fieldsParts rest
end

mutual
/-- The term with all its offsets where a function puts them. -/
def move (place : Nat → Nat) : Term Name → Term Name
  | .name range word => .name (range.move place) word
  | .number range value => .number (range.move place) value
  | .record range fields => .record (range.move place) (moveFields place fields)
  | .enum range values => .enum (range.move place) (values.map (Spanned.move place))
  | .var range lower upper => .var (range.move place) (lower.move place) (upper.move place)
  | .group range members => .group (range.move place) (moveAll place members)

/-- The terms with all their offsets where a function puts them. -/
def moveAll (place : Nat → Nat) : List (Term Name) → List (Term Name)
  | [] => []
  | term :: rest => term.move place :: moveAll place rest

/-- The fields with all their offsets where a function puts them. -/
def moveFields (place : Nat → Nat) : TermFields Name → TermFields Name
  | [] => []
  | (label, type) :: rest => (label.move place, type.move place) :: moveFields place rest
end

/-- The labels of the fields of a term. -/
def labels : Term Name → List (Spanned Name)
  | .record _ fields => fields.map Prod.fst
  | .name _ _ | .number _ _ | .enum _ _ | .var _ _ _ | .group _ _ => []

/-- The numbers of a term that are not numbers of a term inside it. -/
def numbers : Term Name → List (Spanned UInt64)
  | .number range value => [⟨range, value⟩]
  | .enum _ values => values
  | .var _ lower upper => [lower, upper]
  | .name _ _ | .record _ _ | .group _ _ => []

/-- The ranges of a label and of the type behind it. -/
def fieldRanges (field : Spanned Name × Term Name) : List ByteRange :=
  [field.1.range, field.2.range]

/-- The ranges directly inside a term: those of labels and types, of values, of bounds, and of
members. -/
def children : Term Name → List ByteRange
  | .name _ _ | .number _ _ => []
  | .record _ fields => fields.flatMap fieldRanges
  | .enum _ values => values.map Spanned.range
  | .var _ lower upper => [lower.range, upper.range]
  | .group _ members => members.map Term.range

end Term

/-- All the terms of a tree, at any depth. -/
def Tree.parts (tree : Tree Name) : List (Term Name) :=
  Term.membersParts tree.terms

end ArrayShape
