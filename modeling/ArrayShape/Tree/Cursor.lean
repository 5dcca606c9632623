import ArrayShape.Tree.Parser

/-!
# Reading one token after another

The readers of `ArrayShape.Tree.ListReader` and `ArrayShape.Tree.Descent` share what this module
holds: a `Cursor` is the place of a reader, a `Reading` is what comes of reading from a place, and
there is one function for each token or part without operands. A `Reading` carries what makes
recursion end: at least one item is gone. What becomes of names is left to a `Naming`: they may stay
texts, or get keys in a table.
-/

namespace ArrayShape

/-- Where a reader stands: the items that are left, and the number of records that are open. -/
structure Cursor where
  items : List Lexeme
  openRecords : Nat

/-- The same place with one record more. -/
def Cursor.enterRecord (place : Cursor) : Cursor :=
  { place with openRecords := place.openRecords + 1 }

/-- The same place with one record less. -/
def Cursor.leaveRecord (place : Cursor) : Cursor :=
  { place with openRecords := place.openRecords - 1 }

@[simp] theorem Cursor.items_enterRecord (place : Cursor) :
    place.enterRecord.items = place.items := rfl

@[simp] theorem Cursor.items_leaveRecord (place : Cursor) :
    place.leaveRecord.items = place.items := rfl

/-- What was read from a place, and where the reader stops. At least one item was taken. -/
structure Reading (α : Type) (start : Cursor) where
  value : α
  stop : Cursor
  shorter : stop.items.length < start.items.length

namespace Reading

variable {α β : Type} {start : Cursor}

/-- The same items, read as something else. -/
def map (f : α → β) (reading : Reading α start) : Reading β start :=
  { reading with value := f reading.value }

/-- What is read behind something, together with its items. -/
def after (first : Reading α start) (second : Reading β first.stop) : Reading β start where
  value := second.value
  stop := second.stop
  shorter := Nat.lt_trans second.shorter first.shorter

@[simp] theorem value_map (f : α → β) (reading : Reading α start) :
    (reading.map f).value = f reading.value := rfl

@[simp] theorem stop_map (f : α → β) (reading : Reading α start) :
    (reading.map f).stop = reading.stop := rfl

@[simp] theorem value_after (first : Reading α start) (second : Reading β first.stop) :
    (first.after second).value = second.value := rfl

@[simp] theorem stop_after (first : Reading α start) (second : Reading β first.stop) :
    (first.after second).stop = second.stop := rfl

end Reading

/-- What becomes of the names that are read. -/
structure Naming (m : Type → Type) (Name : Type) where
  /-- What a name of the text becomes. -/
  name : String → m Name
  /-- What a keyword becomes that is read as a name. -/
  reserved : Keyword → m Name

/-- Names stay the texts that they are. -/
def Naming.texts : Naming (Except ParseError) String where
  name text := .ok text
  reserved keyword := .ok keyword.text

namespace Cursor

open ArrayShape.Parser (unexpected integer)

/-- Nothing can be read. -/
def refuse {α : Type} (error : ParseError) : Except ParseError α :=
  .error error

/-! ## Tokens -/

/-- Reads a token, whatever it is. -/
def token (atEnd : ParseError) (start : Cursor) :
    Except ParseError (Reading (Token × ByteRange) start) :=
  match h : start.items with
  | [] => .error atEnd
  | .stray range :: _ => .error (.strayCharacter range)
  | .token found range :: rest =>
    return ⟨(found, range), { start with items := rest }, by simp [h]⟩

/-- The next token, which is left where it is. -/
def peek (start : Cursor) : Except ParseError (Option Token) :=
  match start.items with
  | [] => return none
  | .stray range :: _ => .error (.strayCharacter range)
  | .token found _ :: _ => return some found

/-- Reads a comma, if one is next. -/
def comma? (start : Cursor) : Except ParseError (Option (Reading ByteRange start)) :=
  match h : start.items with
  | [] => return none
  | .stray range :: _ => .error (.strayCharacter range)
  | .token .comma range :: rest =>
    return some ⟨range, { start with items := rest }, by simp [h]⟩
  | .token _ _ :: _ => return none

variable (endPosition : Nat)

/-- Reads the parenthesis that closes the given one. -/
def closeParen (opening : ByteRange) (start : Cursor) :
    Except ParseError (Reading ByteRange start) := do
  let next ← token (.unclosedParen opening endPosition) start
  match next.value with
  | (.closeParen, range) => return next.map fun _ => range
  | (.comma, range) => unexpected range .comma [.closeParen]
  | (found, range) => unexpected range found [.comma, .closeParen]

/-- Reads a mark that has no alternative. -/
def mark (wanted : Token) (alternative : Expected) (start : Cursor) :
    Except ParseError (Reading ByteRange start) := do
  let next ← token (.unexpectedEnd endPosition [alternative]) start
  if next.value.1 = wanted then return next.map Prod.snd
  else unexpected next.value.2 next.value.1 [alternative]

/-- Reads a numeral that fits in a word. -/
def number (start : Cursor) : Except ParseError (Reading (Spanned UInt64) start) := do
  let next ← token (.unexpectedEnd endPosition [.integer]) start
  match next.value with
  | (.number digits, range) =>
    let value ← integer range digits
    return next.map fun _ => value
  | (found, range) => unexpected range found [.integer]

/-! ## Arguments of enumerations and ranges -/

/-- `integer ("," integer)*` -/
def numbers (start : Cursor) : Except ParseError (Reading (List (Spanned UInt64)) start) := do
  let first ← number endPosition start
  match ← comma? first.stop with
  | none => return first.map ([·])
  | some comma =>
    have := first.shorter
    have := comma.shorter
    let others ← numbers comma.stop
    return first.after (comma.after (others.map (first.value :: ·)))
termination_by start.items.length

variable {Name : Type}

/-- `"(" integer ("," integer)* ")"`, behind the keyword of an enumeration. -/
def enum (keyword : ByteRange) (start : Cursor) :
    Except ParseError (Reading (Term Name) start) := do
  let opening ← mark endPosition .openParen .openParen start
  let values ← numbers endPosition opening.stop
  let closing ← closeParen endPosition opening.value values.stop
  return opening.after (values.after
    (closing.map fun closing => .enum (keyword.merge closing) values.value))

/-- `"(" integer "," integer ")"`, behind the keyword of a bounded range. -/
def var (keyword : ByteRange) (start : Cursor) :
    Except ParseError (Reading (Term Name) start) := do
  let opening ← mark endPosition .openParen .openParen start
  let lower ← number endPosition opening.stop
  let comma ← mark endPosition .comma .comma lower.stop
  let upper ← number endPosition comma.stop
  let closing ← closeParen endPosition opening.value upper.stop
  return opening.after (lower.after (comma.after (upper.after
    (closing.map fun closing => .var (keyword.merge closing) lower.value upper.value))))

/-! ## Labels -/

variable {m : Type → Type} [Monad m] [MonadLiftT (Except ParseError) m] (naming : Naming m Name)

/-- Reads a label, which may be a keyword. -/
def label (start : Cursor) : m (Reading (Spanned Name) start) := do
  let next ← token (.unexpectedEnd endPosition [.name]) start
  match next.value with
  | (.name text, range) =>
    let name ← naming.name text
    return next.map fun _ => ⟨range, name⟩
  | (.keyword reserved, range) =>
    let name ← naming.reserved reserved
    return next.map fun _ => ⟨range, name⟩
  | (found, range) => unexpected range found [.name]

end Cursor

end ArrayShape
