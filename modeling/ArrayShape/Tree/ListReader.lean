import ArrayShape.Tree.Cursor

/-!
# Reading lists of operands in a loop

A list of operands is read here in a loop that keeps the groups that are open on a stack, so that
parentheses can be nested to any depth. `beforeOperand` is the loop in front of an operand, and
`afterOperand` the loop behind one. A group that is the type of a field is opened by `operand`,
which reads its members in a loop of their own. The number of open records is kept by the reader:
`record` raises it in front of the fields and lowers it behind them.
-/

namespace ArrayShape

namespace ListReader

open ArrayShape.Parser (unexpected integer)
open Cursor (refuse token peek comma? closeParen mark enum var label)

/-- A group that is open, with the operands in front of it in the list where it stands. -/
structure Group (Name : Type) where
  opening : ByteRange
  before : List (Term Name)

variable {m : Type → Type} [Monad m] [MonadLiftT (Except ParseError) m] {Name : Type}
  (naming : Naming m Name) (endPosition : Nat)

mutual
/-- Reads a list of operands. -/
def operands (start : Cursor) : m (Reading (List (Term Name)) start) :=
  beforeOperand [] [] start
termination_by 3 * start.items.length + 2

/-- Opens the groups in front of an operand, and reads the operand into the innermost list. -/
def beforeOperand (groups : List (Group Name)) (before : List (Term Name)) (start : Cursor) :
    m (Reading (List (Term Name)) start) := do
  match ← peek start with
  | some .openParen =>
    let opening ← token (.unexpectedEnd endPosition Expected.operand) start
    have := opening.shorter
    return opening.after (← beforeOperand (⟨opening.value.2, before⟩ :: groups) [] opening.stop)
  | _ =>
    let next ← operand start
    have := next.shorter
    afterOperand groups (next.map fun term => before ++ [term])
termination_by 3 * start.items.length + 1

/-- Closes groups behind an operand until a comma continues the innermost list, or until no group is
open and the list ends. -/
def afterOperand {start : Cursor} (groups : List (Group Name))
    (list : Reading (List (Term Name)) start) : m (Reading (List (Term Name)) start) := do
  match ← comma? list.stop with
  | some comma =>
    have := comma.shorter
    return list.after (comma.after (← beforeOperand groups list.value comma.stop))
  | none =>
    match groups with
    | [] => return list
    | group :: outer =>
      let closing ← closeParen endPosition group.opening list.stop
      have := closing.shorter
      afterOperand outer (list.after (closing.map fun closing =>
        group.before ++ [.group (group.opening.merge closing) list.value]))
termination_by 3 * list.stop.items.length

/-- Reads an operand. -/
def operand (start : Cursor) : m (Reading (Term Name) start) := do
  let first ← token (.unexpectedEnd endPosition Expected.operand) start
  have := first.shorter
  match first.value with
  | (.number digits, range) =>
    let value ← integer range digits
    return first.map fun _ => .number value.range value.value
  | (.name text, range) =>
    match ← peek first.stop with
    | some .openParen => refuse (.unknownConstructor range text)
    | _ =>
      let name ← naming.name text
      return first.map fun _ => .name range name
  | (.keyword .record, range) => return first.after (← record range first.stop)
  | (.keyword .enum, range) => return first.after (← enum endPosition range first.stop)
  | (.keyword .var, range) => return first.after (← var endPosition range first.stop)
  | (.openParen, range) =>
    let members ← operands first.stop
    let closing ← closeParen endPosition range members.stop
    return first.after (members.after
      (closing.map fun closing => .group (range.merge closing) members.value))
  | (found, range) => unexpected range found Expected.operand
termination_by 3 * start.items.length

/-- Reads a record behind its keyword. -/
def record (keyword : ByteRange) (start : Cursor) : m (Reading (Term Name) start) :=
  if maxRecordDepth ≤ start.openRecords then refuse (.nestingTooDeep keyword)
  else do
    let opening ← mark endPosition .openParen .openParen start
    have := opening.shorter
    let first ← field opening.stop.enterRecord
    have : first.stop.items.length < start.items.length :=
      Nat.lt_trans first.shorter opening.shorter
    let list ← moreFields (first.map ([·]))
    let closing ← closeParen endPosition opening.value list.stop.leaveRecord
    return opening.after
      { value := .record (keyword.merge closing.value) list.value
        stop := closing.stop
        shorter := Nat.lt_trans closing.shorter list.shorter }
termination_by 3 * start.items.length

/-- Reads a field behind each comma. -/
def moreFields {start : Cursor} (list : Reading (TermFields Name) start) :
    m (Reading (TermFields Name) start) := do
  match ← comma? list.stop with
  | some comma =>
    have := comma.shorter
    let next ← field comma.stop
    have := next.shorter
    moreFields (list.after (comma.after (next.map fun field => list.value ++ [field])))
  | none => return list
termination_by 3 * list.stop.items.length

/-- Reads a label and the type of the field. -/
def field (start : Cursor) : m (Reading (Spanned Name × Term Name) start) := do
  let label ← label endPosition naming start
  let equals ← mark endPosition .equals .equals label.stop
  have := label.shorter
  have := equals.shorter
  let type ← operand equals.stop
  return label.after (equals.after (type.map fun type => (label.value, type)))
termination_by 3 * start.items.length
end

/-! ## Whole texts -/

/-- The tree of a list of operands, behind which nothing may stand. -/
def wholeTree {start : Cursor} (list : Reading (List (Term Name)) start) :
    Except ParseError (Tree Name) :=
  match list.stop.items with
  | [] => .ok ⟨list.value⟩
  | .stray range :: _ => .error (.strayCharacter range)
  | .token found range :: _ => unexpected range found [.comma, .endOfInput]

/-- Reads items as a list of operands that takes them all. -/
def tree (items : List Lexeme) : m (Tree Name) := do
  let list ← operands naming endPosition ⟨items, 0⟩
  wholeTree list

end ListReader

end ArrayShape
