import ArrayShape.Text.Decimal
import ArrayShape.Token.Lexer
import ArrayShape.Tree.Basic
import ArrayShape.Tree.ParseError

/-!
# Reading the terms of a text

```text
shape   ::= operand ("," operand)*
operand ::= integer | name | record | enum | var | "(" shape ")"
record  ::= "Record" "(" field ("," field)* ")"
field   ::= label "=" operand
label   ::= name | "Record" | "Enum" | "Var"
enum    ::= "Enum" "(" integer ("," integer)* ")"
var     ::= "Var" "(" integer "," integer ")"
```

The reader is an automaton with a stack. A `Frame` is a group or a record that is still open,
with the terms read in it so far, and a `Phase` is what the automaton waits for. `step` moves
by one token, and `run` moves over the items of a text until the list of operands ends. Lists
that are still growing are kept with the latest entry first. No amount of nested parentheses
makes the reader recurse; records alone are limited, to `maxRecordDepth` inside each other.
`ArrayShape.Tree.ListReader` reads the same notation with a loop for groups and recursion for
records; `ArrayShape.Proofs.ListReader` shows that the two agree.
-/

namespace ArrayShape

namespace Parser

/-- A keyword whose arguments are being read, and the parenthesis that opened them. -/
structure Call where
  keyword : ByteRange
  opening : ByteRange
deriving DecidableEq

/-- A group or record that is still open. -/
inductive Frame where
  /-- A group with the operands before the one being read. -/
  | group (opening : ByteRange) (before : List (Term String))
  /-- A record with the fields before the one being read, and the label of that field. -/
  | field (call : Call) (before : TermFields String) (label : Spanned String)

namespace Frame

/-- The parenthesis that opened the frame. -/
def opening : Frame → ByteRange
  | .group opening _ => opening
  | .field call _ _ => call.opening

/-- The frame is a record. -/
def isRecord : Frame → Bool
  | .group _ _ => false
  | .field _ _ _ => true

/-- The term that a frame is when its last operand and its closing parenthesis are read. -/
def close (last : Term String) (closing : ByteRange) : Frame → Term String
  | .group opening before => .group (opening.merge closing) (last :: before).reverse
  | .field call before label =>
    .record (call.keyword.merge closing) ((label, last) :: before).reverse

end Frame

/-- What the automaton waits for between a keyword and the end of its arguments, with what it has
read of them. The type of a field is not among these, since it is an operand. -/
inductive Argument where
  /-- The parenthesis after the keyword. -/
  | opening (reserved : Keyword) (keyword : ByteRange)
  /-- The label of a field. -/
  | label (call : Call) (before : TermFields String)
  /-- The equals sign after a label. -/
  | equals (call : Call) (before : TermFields String) (label : Spanned String)
  /-- A value of an enumeration. -/
  | enumValue (call : Call) (before : List (Spanned UInt64))
  /-- A comma or the closing parenthesis after a value of an enumeration. -/
  | enumNext (call : Call) (values : List (Spanned UInt64))
  /-- The lower bound of a bounded range. -/
  | lower (call : Call)
  /-- The comma between two bounds. -/
  | separator (call : Call) (lower : Spanned UInt64)
  /-- The upper bound of a bounded range. -/
  | upper (call : Call) (lower : Spanned UInt64)
  /-- The closing parenthesis after two bounds. -/
  | closing (call : Call) (lower upper : Spanned UInt64)

/-- What the automaton waits for, with what it has read since the last frame was opened. -/
inductive Phase where
  /-- An operand. -/
  | operand
  /-- A part of the arguments of a keyword. -/
  | argument (argument : Argument)
  /-- What follows a complete operand: a comma, a closing parenthesis, or the end. -/
  | complete (term : Term String)

/-- A state of the automaton: the operands before the one being read outside all frames, the
open frames with the innermost first, and the phase. -/
structure State where
  base : List (Term String)
  frames : List Frame
  phase : Phase

/-- The state in front of a list of operands. -/
def State.initial : State :=
  ⟨[], [], .operand⟩

/-- The number of records that are open around the operand being read. -/
def State.openRecords (state : State) : Nat :=
  state.frames.countP Frame.isRecord

/-- What a token does: it is read, or it stands behind the end of the list of operands. -/
inductive Move where
  | next (state : State)
  | stop (terms : List (Term String))

/-- A token that does not fit, with the alternatives. -/
def unexpected {α : Type} (range : ByteRange) (found : Token) (expected : List Expected) :
    Except ParseError α :=
  .error (.unexpectedToken range found expected)

/-- The word that a numeral denotes, with its range. -/
def integer (range : ByteRange) (digits : String) : Except ParseError (Spanned UInt64) :=
  match Decimal.read? digits with
  | some value => .ok ⟨range, value⟩
  | none => .error (.integerTooLarge range)

/-- The label that a token is: a name, or a keyword read as a name. -/
def label? : Token → Option String
  | .name text => some text
  | .keyword reserved => some reserved.text
  | .number _ | .comma | .equals | .openParen | .closeParen => none

/-- Reads a token where an operand is awaited, with a number of records open around the whole
list of operands. -/
def readOperand (depth : Nat) (state : State) (token : Token) (range : ByteRange) :
    Except ParseError State :=
  match token with
  | .number digits =>
    match integer range digits with
    | .ok value => .ok { state with phase := .complete (.number value.range value.value) }
    | .error error => .error error
  | .name text => .ok { state with phase := .complete (.name range text) }
  | .keyword reserved =>
    if reserved = .record ∧ maxRecordDepth ≤ depth + state.openRecords then
      .error (.nestingTooDeep range)
    else .ok { state with phase := .argument (.opening reserved range) }
  | .openParen => .ok { state with frames := .group range [] :: state.frames, phase := .operand }
  | .comma | .equals | .closeParen => unexpected range token Expected.operand

/-- The first argument that a keyword awaits behind its parenthesis. -/
def firstArgument (call : Call) : Keyword → Argument
  | .record => .label call []
  | .enum => .enumValue call []
  | .var => .lower call

/-- Reads a token between a keyword and the end of its arguments. -/
def readArgument (state : State) (argument : Argument) (token : Token) (range : ByteRange) :
    Except ParseError State :=
  match argument with
  | .opening reserved keyword =>
    match token with
    | .openParen =>
      .ok { state with phase := .argument (firstArgument ⟨keyword, range⟩ reserved) }
    | _ => unexpected range token [.openParen]
  | .label call before =>
    match label? token with
    | some label => .ok { state with phase := .argument (.equals call before ⟨range, label⟩) }
    | none => unexpected range token [.name]
  | .equals call before label =>
    match token with
    | .equals =>
      .ok { state with frames := .field call before label :: state.frames, phase := .operand }
    | _ => unexpected range token [.equals]
  | .enumValue call before =>
    match token with
    | .number digits =>
      match integer range digits with
      | .ok value => .ok { state with phase := .argument (.enumNext call (value :: before)) }
      | .error error => .error error
    | _ => unexpected range token [.integer]
  | .enumNext call values =>
    match token with
    | .comma => .ok { state with phase := .argument (.enumValue call values) }
    | .closeParen =>
      .ok { state with phase := .complete (.enum (call.keyword.merge range) values.reverse) }
    | _ => unexpected range token [.comma, .closeParen]
  | .lower call =>
    match token with
    | .number digits =>
      match integer range digits with
      | .ok lower => .ok { state with phase := .argument (.separator call lower) }
      | .error error => .error error
    | _ => unexpected range token [.integer]
  | .separator call lower =>
    match token with
    | .comma => .ok { state with phase := .argument (.upper call lower) }
    | _ => unexpected range token [.comma]
  | .upper call lower =>
    match token with
    | .number digits =>
      match integer range digits with
      | .ok upper => .ok { state with phase := .argument (.closing call lower upper) }
      | .error error => .error error
    | _ => unexpected range token [.integer]
  | .closing call lower upper =>
    match token with
    | .closeParen =>
      .ok { state with phase := .complete (.var (call.keyword.merge range) lower upper) }
    | .comma => unexpected range token [.closeParen]
    | _ => unexpected range token [.comma, .closeParen]

/-- Reads the comma after a complete operand, which then joins the innermost open list. -/
def readComma (state : State) (term : Term String) : State :=
  match state.frames with
  | [] => { state with base := term :: state.base, phase := .operand }
  | .group opening before :: outer =>
    { state with frames := .group opening (term :: before) :: outer, phase := .operand }
  | .field call before label :: outer =>
    { state with frames := outer, phase := .argument (.label call ((label, term) :: before)) }

/-- Reads a token behind a complete operand that is neither a comma nor the parenthesis of an
argument list. It closes the innermost frame, or stands behind the list of operands. -/
def readEnd (state : State) (term : Term String) (token : Token) (range : ByteRange) :
    Except ParseError Move :=
  match state.frames with
  | [] => .ok (.stop (term :: state.base).reverse)
  | frame :: outer =>
    match token with
    | .closeParen =>
      .ok (.next { state with frames := outer, phase := .complete (frame.close term range) })
    | _ => unexpected range token [.comma, .closeParen]

/-- Reads a token behind a complete operand. A name must not be followed by an argument list. -/
def readAfter (state : State) (term : Term String) (token : Token) (range : ByteRange) :
    Except ParseError Move :=
  match token with
  | .comma => .ok (.next (readComma state term))
  | .openParen =>
    match term with
    | .name nameRange name => .error (.unknownConstructor nameRange name)
    | _ => readEnd state term token range
  | _ => readEnd state term token range

/-- Moves by one token, with a number of records open around the whole list of operands. -/
def step (depth : Nat) (state : State) (token : Token) (range : ByteRange) :
    Except ParseError Move :=
  match state.phase with
  | .operand => (readOperand depth state token range).map .next
  | .argument argument => (readArgument state argument token range).map .next
  | .complete term => readAfter state term token range

/-- The error when the text ends inside the arguments of a keyword. -/
def endInArgument (endPosition : Nat) : Argument → ParseError
  | .opening _ _ => .unexpectedEnd endPosition [.openParen]
  | .label _ _ => .unexpectedEnd endPosition [.name]
  | .equals _ _ _ => .unexpectedEnd endPosition [.equals]
  | .enumValue _ _ | .lower _ | .upper _ _ => .unexpectedEnd endPosition [.integer]
  | .separator _ _ => .unexpectedEnd endPosition [.comma]
  | .enumNext call _ | .closing call _ _ => .unclosedParen call.opening endPosition

/-- The operands that were read when the text ends. -/
def finish (endPosition : Nat) (state : State) : Except ParseError (List (Term String)) :=
  match state.phase with
  | .operand => .error (.unexpectedEnd endPosition Expected.operand)
  | .argument argument => .error (endInArgument endPosition argument)
  | .complete term =>
    match state.frames with
    | [] => .ok (term :: state.base).reverse
    | frame :: _ => .error (.unclosedParen frame.opening endPosition)

/-- Moves over items until the list of operands ends. Gives the operands, and the items that are
left behind them. -/
def run (depth endPosition : Nat) (state : State) :
    List Lexeme → Except ParseError (List (Term String) × List Lexeme)
  | [] => (finish endPosition state).map (·, [])
  | .stray range :: _ => .error (.strayCharacter range)
  | .token token range :: rest =>
    match step depth state token range with
    | .error error => .error error
    | .ok (.stop terms) => .ok (terms, .token token range :: rest)
    | .ok (.next following) => run depth endPosition following rest

end Parser

namespace Tree

/-- Reads the items of a text as a list of operands that takes them all. -/
def ofLexemes (endPosition : Nat) (lexemes : List Lexeme) : Except ParseError (Tree String) :=
  match Parser.run 0 endPosition .initial lexemes with
  | .error error => .error error
  | .ok (terms, []) => .ok ⟨terms⟩
  | .ok (_, .stray range :: _) => .error (.strayCharacter range)
  | .ok (_, .token token range :: _) => Parser.unexpected range token [.comma, .endOfInput]

/-- Reads a text as a list of operands. A caller must give at most `maxSourceSize` bytes, as for
`Lexeme.ofText`. -/
def parse (source : String) : Except ParseError (Tree String) :=
  ofLexemes source.utf8ByteSize (Lexeme.ofText source)

end Tree

end ArrayShape
