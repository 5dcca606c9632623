import ArrayShape.Tree.Cursor

/-!
# Reading by recursive descent

The functions of this module read the notation by plain recursion, with one function for each rule
of the grammar: the members of a group are a list of operands, whose operands may be groups again.
The number of open records is counted up in front of the fields of a record and down behind them.
-/

namespace ArrayShape

namespace Descent

open ArrayShape.Parser (unexpected integer)
open Cursor (refuse token peek comma? closeParen mark enum var label)

variable {m : Type → Type} [Monad m] [MonadLiftT (Except ParseError) m] {Name : Type}
  (naming : Naming m Name) (endPosition : Nat)

mutual
/-- `operand ::= integer | name | record | enum | var | "(" shape ")"` -/
def operand (start : Cursor) : m (Reading (Term Name) start) := do
  let first ← token (.unexpectedEnd endPosition Expected.operand) start
  have := first.shorter
  match first.value with
  | (.number digits, range) =>
    let value ← integer range digits
    return first.map fun _ => .number value.range value.value
  | (.name text, range) =>
    match ← peek first.stop with
    | some .openParen => refuse (.unknownConstructor range text)
    | _ =>
      let name ← naming.name text
      return first.map fun _ => .name range name
  | (.keyword .record, range) => return first.after (← record range first.stop)
  | (.keyword .enum, range) => return first.after (← enum endPosition range first.stop)
  | (.keyword .var, range) => return first.after (← var endPosition range first.stop)
  | (.openParen, range) =>
    let members ← operands first.stop
    let closing ← closeParen endPosition range members.stop
    return first.after (members.after
      (closing.map fun closing => .group (range.merge closing) members.value))
  | (found, range) => unexpected range found Expected.operand
termination_by 2 * start.items.length

/-- `operand ("," operand)*` -/
def operands (start : Cursor) : m (Reading (List (Term Name)) start) := do
  let first ← operand start
  match ← comma? first.stop with
  | none => return first.map ([·])
  | some comma =>
    have := first.shorter
    have := comma.shorter
    let others ← operands comma.stop
    return first.after (comma.after (others.map (first.value :: ·)))
termination_by 2 * start.items.length + 1

/-- `"(" field ("," field)* ")"`, behind the keyword of a record. -/
def record (keyword : ByteRange) (start : Cursor) : m (Reading (Term Name) start) :=
  if maxRecordDepth ≤ start.openRecords then refuse (.nestingTooDeep keyword)
  else do
    let opening ← mark endPosition .openParen .openParen start
    have := opening.shorter
    let list ← fields opening.stop.enterRecord
    let closing ← closeParen endPosition opening.value list.stop.leaveRecord
    return opening.after
      { value := .record (keyword.merge closing.value) list.value
        stop := closing.stop
        shorter := Nat.lt_trans closing.shorter list.shorter }
termination_by 2 * start.items.length

/-- `field ("," field)*` -/
def fields (start : Cursor) : m (Reading (TermFields Name) start) := do
  let first ← field start
  match ← comma? first.stop with
  | none => return first.map ([·])
  | some comma =>
    have := first.shorter
    have := comma.shorter
    let others ← fields comma.stop
    return first.after (comma.after (others.map (first.value :: ·)))
termination_by 2 * start.items.length + 1

/-- `field ::= label "=" operand` -/
def field (start : Cursor) : m (Reading (Spanned Name × Term Name) start) := do
  let label ← label endPosition naming start
  let equals ← mark endPosition .equals .equals label.stop
  have := label.shorter
  have := equals.shorter
  let type ← operand equals.stop
  return label.after (equals.after (type.map fun type => (label.value, type)))
termination_by 2 * start.items.length
end

end Descent

end ArrayShape
