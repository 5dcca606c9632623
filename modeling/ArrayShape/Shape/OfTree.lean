import ArrayShape.Shape.Basic
import ArrayShape.Shape.CheckError
import ArrayShape.Tree.Basic

/-!
# The shape that a tree of terms describes

Groups in a list of operands are spliced: their members take the place of the group. Names are
resolved to operands by a function that the caller gives. A group that is the type of a field
is spliced as well, and must then hold exactly one operand. Two checks may be set by `Options`:
that bounds are in order, and that the labels of a record are distinct. `Shape.ofTree` stops
at the first error from left to right. A record's labels are checked before its fields, and the
number of operands in a group after them.
-/

namespace ArrayShape

/-- Which trees are accepted. -/
structure Options where
  /-- Reject a bounded range whose lower bound is above its upper bound. -/
  validateBounds : Bool := true
  /-- Accept a record in which a label occurs more than once. -/
  allowRepeats : Bool := false
deriving DecidableEq

namespace Shape

variable {Name : Type} [DecidableEq Name]

/-- The labels that occur among the labels before them, when the given ones come first. -/
def repeatsAfter (seen : List Name) : List (Spanned Name) → List (Spanned Name)
  | [] => []
  | label :: rest =>
    let later := repeatsAfter (label.value :: seen) rest
    if seen.contains label.value then label :: later else later

/-- The labels of fields that an earlier field has too, in order. -/
def repeats (fields : TermFields Name) : List (Spanned Name) :=
  repeatsAfter [] (fields.map Prod.fst)

/-- Fails for the labels of a record that an earlier field has too. -/
def checkLabels (range : ByteRange) (fields : TermFields Name) : Except (CheckError Name) Unit :=
  match repeats fields with
  | [] => .ok ()
  | label :: others => .error (.repeatedLabels range (label :: others))

mutual
/-- Appends the operands of terms to those that are done, the latest first. The stack holds
the rest of the list of operands and of every group around it, the innermost first. -/
def splice (options : Options) (resolve : Name → Operand Name) (done : List (Operand Name)) :
    List (List (Term Name)) → Except (CheckError Name) (List (Operand Name))
  | [] => .ok done.reverse
  | [] :: pending => splice options resolve done pending
  | (.group _ members :: rest) :: pending =>
    splice options resolve done (members :: rest :: pending)
  | (term :: rest) :: pending =>
    match operandOf options resolve term with
    | .error error => .error error
    | .ok operand => splice options resolve (operand :: done) (rest :: pending)
termination_by stack => stack.foldr (fun terms total => sizeOf terms + total) 0

/-- The operand that a term describes where a single operand must stand. -/
def operandOf (options : Options) (resolve : Name → Operand Name) :
    Term Name → Except (CheckError Name) (Operand Name)
  | .name _ name => .ok (resolve name)
  | .number _ value => .ok (.integer value)
  | .record range fields =>
    match if options.allowRepeats then .ok () else checkLabels range fields with
    | .error error => .error error
    | .ok () => (fieldsOf options resolve fields).map .record
  | .enum _ values => .ok (.enum (values.map (·.value)))
  | .var range lower upper =>
    if options.validateBounds ∧ upper.value < lower.value then
      .error (.invertedBounds range lower.value upper.value)
    else .ok (.var lower.value upper.value)
  | .group range members =>
    match splice options resolve [] [members] with
    | .error error => .error error
    | .ok [operand] => .ok operand
    | .ok operands => .error (.notOneOperand range operands.length)
termination_by term => sizeOf term

/-- The fields that the fields of a record describe. -/
def fieldsOf (options : Options) (resolve : Name → Operand Name) :
    TermFields Name → Except (CheckError Name) (Fields Name)
  | [] => .ok []
  | (label, type) :: rest =>
    match operandOf options resolve type with
    | .error error => .error error
    | .ok operand => (fieldsOf options resolve rest).map ((label.value, operand) :: ·)
termination_by fields => sizeOf fields
end

/-- The shape that a tree describes. -/
def ofTree (options : Options) (resolve : Name → Operand Name) (tree : Tree Name) :
    Except (CheckError Name) (Shape Name) :=
  (splice options resolve [] [tree.terms]).map Shape.mk

end Shape

end ArrayShape
