import ArrayShape.Proofs.Regrouping
import ArrayShape.Shape.Parse
import ArrayShape.Tree.Parts

/-!
# Items at other places

Reading decides by the items of a text and never by their offsets. If every item is moved to another
place, by a function that keeps the order of offsets, then the same shape is read, or the same error
is met with its offsets moved (`Shape.ofLexemes_move`). The automaton is followed step by step
(`Parser.step_move`) with everything that it has read moved along, behind terms that it may have
read before; the order matters where the ranges of a keyword and of its closing parenthesis are
merged.
-/

namespace ArrayShape

/-! ## Errors at other places -/

/-- The error with its offsets where a function puts them. -/
def ParseError.move (place : Nat → Nat) : ParseError → ParseError
  | .strayCharacter range => .strayCharacter (range.move place)
  | .unexpectedToken range found expected => .unexpectedToken (range.move place) found expected
  | .unexpectedEnd position expected => .unexpectedEnd (place position) expected
  | .unclosedParen opening endPosition => .unclosedParen (opening.move place) (place endPosition)
  | .unknownConstructor range name => .unknownConstructor (range.move place) name
  | .integerTooLarge range => .integerTooLarge (range.move place)
  | .nestingTooDeep range => .nestingTooDeep (range.move place)

/-- The error with its offsets where a function puts them. -/
def CheckError.move {Name : Type} (place : Nat → Nat) : CheckError Name → CheckError Name
  | .invertedBounds range lower upper => .invertedBounds (range.move place) lower upper
  | .repeatedLabels range labels =>
    .repeatedLabels (range.move place) (labels.map (Spanned.move place))
  | .notOneOperand range count => .notOneOperand (range.move place) count

/-- The error with its offsets where a function puts them. -/
def Error.move (place : Nat → Nat) : Error → Error
  | .malformed error => .malformed (error.move place)
  | .invalid error => .invalid (error.move place)

namespace Term

variable {Name : Type} (place : Nat → Nat)

/-- Terms are moved one by one. -/
theorem moveAll_eq_map (terms : List (Term Name)) :
    moveAll place terms = terms.map (move place) := by
  induction terms with
  | nil => rfl
  | cons term rest ih => rw [moveAll, List.map_cons, ih]

/-- Fields are moved one by one, each with its label and its type. -/
theorem moveFields_eq_map (fields : TermFields Name) :
    moveFields place fields = fields.map fun field => (field.1.move place, field.2.move place) := by
  induction fields with
  | nil => rfl
  | cons field rest ih => rw [moveFields, List.map_cons, ih]

/-- The labels of fields that are moved are moved. -/
theorem map_fst_moveFields (fields : TermFields Name) :
    (moveFields place fields).map Prod.fst = (fields.map Prod.fst).map (Spanned.move place) := by
  rw [moveFields_eq_map, List.map_map, List.map_map]
  rfl

/-- A term that is moved has its range moved. -/
@[simp] theorem range_move (term : Term Name) :
    (term.move place).range = term.range.move place := by
  cases term <;> rfl

end Term

namespace Parser

/-! ## The automaton -/

section Moved

variable (place : Nat → Nat)

/-- The keyword and its parenthesis at other places. -/
def Call.move (call : Call) : Call :=
  ⟨call.keyword.move place, call.opening.move place⟩

/-- The frame with all that was read in it at other places. -/
def Frame.move : Frame → Frame
  | .group opening before => .group (opening.move place) (before.map (Term.move place))
  | .field call before label =>
    .field (call.move place) (Term.moveFields place before) (label.move place)

/-- The argument that is awaited, with all that was read before it at other places. -/
def Argument.move : Argument → Argument
  | .opening reserved keyword => .opening reserved (keyword.move place)
  | .label call before => .label (call.move place) (Term.moveFields place before)
  | .equals call before word =>
    .equals (call.move place) (Term.moveFields place before) (word.move place)
  | .enumValue call before => .enumValue (call.move place) (before.map (Spanned.move place))
  | .enumNext call values => .enumNext (call.move place) (values.map (Spanned.move place))
  | .lower call => .lower (call.move place)
  | .separator call low => .separator (call.move place) (low.move place)
  | .upper call low => .upper (call.move place) (low.move place)
  | .closing call low high => .closing (call.move place) (low.move place) (high.move place)

/-- The phase with all that was read in it at other places. -/
def Phase.move : Phase → Phase
  | .operand => .operand
  | .argument awaited => .argument (awaited.move place)
  | .complete term => .complete (term.move place)

/-- Terms at other places, behind terms that were read before them and are kept with the latest
first. -/
def moveBehind (below terms : List (Term String)) : List (Term String) :=
  below.reverse ++ terms.map (Term.move place)

/-- The state with all that was read at other places, and with terms that were read before. -/
def State.move (below : List (Term String)) (state : State) : State :=
  ⟨state.base.map (Term.move place) ++ below, state.frames.map (Frame.move place),
    state.phase.move place⟩

/-- The effect of a token when all that was read is at other places, and terms were read before. -/
def Move.move (below : List (Term String)) : Move → Move
  | .next state => .next (state.move place below)
  | .stop terms => .stop (moveBehind place below terms)

/-- A result at other places. -/
def relocate {α : Type} (moved : α → α) (result : Except ParseError α) : Except ParseError α :=
  (result.map moved).mapError (ParseError.move place)

end Moved

variable {place : Nat → Nat} {depth : Nat} (below : List (Term String))

@[simp] theorem relocate_ok {α : Type} (moved : α → α) (value : α) :
    relocate place moved (.ok value) = .ok (moved value) := rfl

/-- Frames are records or groups wherever they stand. -/
@[simp] theorem State.openRecords_move (state : State) :
    (state.move place below).openRecords = state.openRecords := by
  have hrecord : ∀ frame : Frame, (frame.move place).isRecord = frame.isRecord := by
    intro frame
    cases frame <;> rfl
  simp only [openRecords, State.move, List.countP_map, Function.comp_def, hrecord]

/-- A numeral is read alike wherever it stands. -/
theorem integer_move (range : ByteRange) (digits : String) :
    integer (range.move place) digits =
      relocate place (Spanned.move place) (integer range digits) := by
  unfold integer
  cases Decimal.read? digits <;> rfl

/-- The first token of an operand is read alike wherever it stands. -/
theorem readOperand_move (state : State) (token : Token) (range : ByteRange) :
    readOperand depth (state.move place below) token (range.move place) =
      relocate place (State.move place below) (readOperand depth state token range) := by
  cases token with
  | number digits =>
      simp only [readOperand, integer_move]
      cases integer range digits <;> rfl
  | keyword reserved =>
      simp only [readOperand, State.openRecords_move]
      split <;> rfl
  | name | openParen | comma | equals | closeParen => rfl

/-- A token in the arguments of a keyword is read alike wherever it stands. -/
theorem readArgument_move (hplace : ByteRange.KeepsOrder place) (state : State)
    (awaited : Argument) (token : Token) (range : ByteRange) :
    readArgument (state.move place below) (awaited.move place) token (range.move place) =
      relocate place (State.move place below) (readArgument state awaited token range) := by
  cases awaited with
  | opening reserved keyword =>
      cases token with
      | openParen => cases reserved <;> rfl
      | _ => rfl
  | label call before => cases token <;> rfl
  | equals call before label => cases token <;> rfl
  | enumNext call values =>
      cases token with
      | closeParen =>
          simp only [Argument.move, readArgument, relocate_ok, State.move, Phase.move, Term.move,
            ByteRange.move_merge hplace, Call.move, List.map_reverse]
      | _ => rfl
  | separator call lower => cases token <;> rfl
  | closing call lower upper =>
      cases token with
      | closeParen =>
          simp only [Argument.move, readArgument, relocate_ok, State.move, Phase.move, Term.move,
            ByteRange.move_merge hplace, Call.move]
      | _ => rfl
  | enumValue call before | lower call | upper call lower =>
      cases token with
      | number digits =>
          simp only [Argument.move, readArgument, integer_move]
          cases integer range digits <;> rfl
      | _ => rfl

/-- A frame is closed alike wherever it stands. -/
theorem Frame.move_close (hplace : ByteRange.KeepsOrder place) (frame : Frame)
    (last : Term String) (closing : ByteRange) :
    (frame.move place).close (last.move place) (closing.move place) =
      (frame.close last closing).move place := by
  cases frame with
  | group opening before =>
      simp [Frame.move, close, Term.move, ByteRange.move_merge hplace, Term.moveAll_eq_map]
  | field call before label =>
      simp [Frame.move, close, Term.move, ByteRange.move_merge hplace, Term.moveFields_eq_map,
        Call.move]

/-- A comma behind a complete operand does the same wherever it stands. -/
theorem readComma_move (state : State) (term : Term String) :
    readComma (state.move place below) (term.move place) =
      (readComma state term).move place below := by
  obtain ⟨base, frames, phase⟩ := state
  cases frames with
  | nil => rfl
  | cons frame outer => cases frame <;> rfl

/-- A token behind a complete operand that is no comma is read alike wherever it stands. -/
theorem readEnd_move (hplace : ByteRange.KeepsOrder place) (state : State) (term : Term String)
    (token : Token) (range : ByteRange) :
    readEnd (state.move place below) (term.move place) token (range.move place) =
      relocate place (Move.move place below) (readEnd state term token range) := by
  obtain ⟨base, frames, phase⟩ := state
  cases frames with
  | nil => simp [readEnd, State.move, Move.move, moveBehind]
  | cons frame outer =>
      cases token with
      | closeParen =>
          simp only [readEnd, State.move, List.map_cons, Frame.move_close hplace, relocate_ok,
            Move.move, Phase.move]
      | _ => rfl

/-- A token behind a complete operand is read alike wherever it stands. -/
theorem readAfter_move (hplace : ByteRange.KeepsOrder place) (state : State) (term : Term String)
    (token : Token) (range : ByteRange) :
    readAfter (state.move place below) (term.move place) token (range.move place) =
      relocate place (Move.move place below) (readAfter state term token range) := by
  cases token with
  | comma => exact congrArg (Except.ok ∘ Move.next) (readComma_move below state term)
  | openParen =>
      cases term with
      | name => rfl
      | _ => exact readEnd_move below hplace state _ .openParen range
  | _ => simp only [readAfter, readEnd_move below hplace]

/-- The automaton moves alike wherever a token stands. -/
theorem step_move (hplace : ByteRange.KeepsOrder place) (state : State) (token : Token)
    (range : ByteRange) :
    step depth (state.move place below) token (range.move place) =
      relocate place (Move.move place below) (step depth state token range) := by
  have hphase : (state.move place below).phase = state.phase.move place := rfl
  unfold step
  rw [hphase]
  cases state.phase with
  | operand =>
      simp only [Phase.move, readOperand_move below]
      cases readOperand depth state token range <;> rfl
  | argument awaited =>
      simp only [Phase.move, readArgument_move below hplace]
      cases readArgument state awaited token range <;> rfl
  | complete term => exact readAfter_move below hplace state term token range

/-- A text ends alike wherever it ends. -/
theorem finish_move (endPosition : Nat) (state : State) :
    finish (place endPosition) (state.move place below) =
      relocate place (moveBehind place below) (finish endPosition state) := by
  obtain ⟨base, frames, phase⟩ := state
  cases phase with
  | operand => rfl
  | argument awaited => cases awaited <;> rfl
  | complete term =>
      cases frames with
      | nil => simp [finish, State.move, Phase.move, moveBehind]
      | cons frame outer => cases frame <;> rfl

/-- The automaton runs alike wherever the items stand. -/
theorem run_move (hplace : ByteRange.KeepsOrder place) (endPosition : Nat) (state : State)
    (items : List Lexeme) :
    run depth (place endPosition) (state.move place below) (items.map (Lexeme.move place)) =
      relocate place (Prod.map (moveBehind place below) (List.map (Lexeme.move place)))
        (run depth endPosition state items) := by
  induction items generalizing state with
  | nil =>
      simp only [List.map_nil, run, finish_move below]
      cases finish endPosition state <;> rfl
  | cons item rest ih =>
      cases item with
      | stray range => rfl
      | token token range =>
          simp only [List.map_cons, Lexeme.move_token, run, step_move below hplace]
          cases step depth state token range with
          | error error => rfl
          | ok effect =>
              cases effect with
              | stop terms => rfl
              | next following => exact ih following

end Parser

namespace Tree

/-- A list of items behind terms that were read before them is read alike wherever the items
stand. -/
theorem ofLexemes_of_run {place : Nat → Nat} (hplace : ByteRange.KeepsOrder place)
    {endPosition : Nat} {below : List (Term String)} {whole items : List Lexeme}
    (h : Parser.run 0 (place endPosition) .initial whole =
      Parser.run 0 (place endPosition) ⟨below, [], .operand⟩ (items.map (Lexeme.move place))) :
    ofLexemes (place endPosition) whole =
      ((ofLexemes endPosition items).map fun tree =>
        ⟨Parser.moveBehind place below tree.terms⟩).mapError (ParseError.move place) := by
  have hrun : Parser.run 0 (place endPosition) ⟨below, [], .operand⟩
      (items.map (Lexeme.move place)) = _ := Parser.run_move below hplace endPosition .initial items
  unfold ofLexemes
  rw [h, hrun]
  cases Parser.run 0 endPosition .initial items with
  | error error => rfl
  | ok result =>
      obtain ⟨terms, left⟩ := result
      cases left with
      | nil => rfl
      | cons item rest => cases item <;> rfl

/-- A list of items is read alike wherever the items stand. -/
theorem ofLexemes_move {place : Nat → Nat} (hplace : ByteRange.KeepsOrder place) (endPosition : Nat)
    (items : List Lexeme) :
    ofLexemes (place endPosition) (items.map (Lexeme.move place)) =
      ((ofLexemes endPosition items).map fun tree => ⟨Term.moveAll place tree.terms⟩).mapError
        (ParseError.move place) := by
  simp only [Term.moveAll_eq_map]
  exact ofLexemes_of_run hplace rfl

end Tree

namespace Shape

/-! ## The checks -/

section Results

variable {ε ε' α β : Type} (result : Except ε α) (g : ε → ε')

/-- An error of a sequence of two readings is changed in either of them. -/
theorem mapError_bind (f : α → Except ε β) :
    (result.bind f).mapError g = (result.mapError g).bind fun value => (f value).mapError g := by
  cases result <;> rfl

/-- Errors and values are changed apart. -/
theorem mapError_map (f : α → β) : (result.map f).mapError g = (result.mapError g).map f := by
  cases result <;> rfl

end Results

variable {Name : Type} [DecidableEq Name] {options : Options} {resolve : Name → Operand Name}
  (place : Nat → Nat)

omit [DecidableEq Name] in
/-- Whether a list has a single operand is decided alike at every place. -/
theorem single_move (range : ByteRange) (operands : List (Operand Name)) :
    single (range.move place) operands =
      (single range operands).mapError (CheckError.move place) := by
  cases operands with
  | nil => rfl
  | cons operand rest => cases rest <;> rfl

/-- Labels are repeated wherever they stand. -/
theorem repeatsAfter_move (seen : List Name) (labels : List (Spanned Name)) :
    repeatsAfter seen (labels.map (Spanned.move place)) =
      (repeatsAfter seen labels).map (Spanned.move place) := by
  induction labels generalizing seen with
  | nil => rfl
  | cons label rest ih =>
      simp only [List.map_cons, repeatsAfter, ih]
      show (if seen.contains label.value then _ else _) = _
      split <;> rfl

/-- The labels of fields are repeated wherever the fields stand. -/
theorem repeats_move (fields : TermFields Name) :
    repeats (Term.moveFields place fields) = (repeats fields).map (Spanned.move place) := by
  rw [repeats, Term.map_fst_moveFields, repeatsAfter_move, repeats]

mutual
/-- A term describes the same operands wherever it stands. -/
theorem flatten_move (term : Term Name) :
    flatten options resolve (term.move place) =
      (flatten options resolve term).mapError (CheckError.move place) := by
  cases term with
  | name | number => rfl
  | record range fields =>
      have hfields := flattenFields_move fields
      rw [Term.move, flatten, flatten, repeats_move, hfields]
      cases options.allowRepeats with
      | true => exact (mapError_map _ _ _).symm
      | false =>
          cases repeats fields with
          | nil => exact (mapError_map _ _ _).symm
          | cons label others => rfl
  | enum range values =>
      rw [Term.move, flatten, flatten, List.map_map]
      rfl
  | var range lower upper =>
      rw [Term.move, flatten, flatten]
      show (if options.validateBounds ∧ upper.value < lower.value then _ else _) = _
      by_cases hbounds : options.validateBounds ∧ upper.value < lower.value
      · rw [if_pos hbounds, if_pos hbounds]
        rfl
      · rw [if_neg hbounds, if_neg hbounds]
        rfl
  | group range members =>
      rw [Term.move, flatten, flatten]
      exact flattenAll_move members

/-- Terms describe the same operands wherever they stand. -/
theorem flattenAll_move (terms : List (Term Name)) :
    flattenAll options resolve (Term.moveAll place terms) =
      (flattenAll options resolve terms).mapError (CheckError.move place) := by
  match terms with
  | [] => rfl
  | term :: rest =>
      rw [Term.moveAll, flattenAll_cons, flattenAll_cons, flatten_move term, mapError_bind]
      congr 1
      funext operands
      rw [flattenAll_move rest, mapError_map]

/-- Fields describe the same fields wherever they stand. -/
theorem flattenFields_move (fields : TermFields Name) :
    flattenFields options resolve (Term.moveFields place fields) =
      (flattenFields options resolve fields).mapError (CheckError.move place) := by
  match fields with
  | [] => rfl
  | (label, type) :: rest =>
      rw [Term.moveFields, flattenFields_cons, flattenFields_cons, flatten_move type, mapError_bind,
        mapError_bind, Term.range_move]
      congr 1
      · congr 1
        funext operands
        exact single_move place type.range operands
      · funext operand
        rw [flattenFields_move rest, mapError_map]
        rfl
end

/-! ## Whole texts -/

/-- Reads the items of a text as a shape. -/
def ofLexemes (options : Options) (endPosition : Nat) (items : List Lexeme) :
    Except Error (Shape String) :=
  ((Tree.ofLexemes endPosition items).mapError .malformed).bind fun tree =>
    (Shape.resolve options tree).mapError .invalid

/-- A text is read by its items and the place where it ends. -/
theorem parse_eq_ofLexemes (options : Options) (source : String) :
    parse options source = ofLexemes options source.utf8ByteSize (Lexeme.ofText source) := by
  rw [parse, ofLexemes, Tree.parse]
  cases Tree.ofLexemes source.utf8ByteSize (Lexeme.ofText source) with
  | error error => rfl
  | ok tree =>
      dsimp only
      show _ = (resolve options tree).mapError Error.invalid
      cases resolve options tree <;> rfl

/-- Items are read as the same shape wherever they stand, or with the same error at their place. -/
theorem ofLexemes_move {place : Nat → Nat} (hplace : ByteRange.KeepsOrder place) (options : Options)
    (endPosition : Nat) (items : List Lexeme) :
    ofLexemes options (place endPosition) (items.map (Lexeme.move place)) =
      (ofLexemes options endPosition items).mapError (Error.move place) := by
  unfold ofLexemes
  rw [Tree.ofLexemes_move hplace]
  cases Tree.ofLexemes endPosition items with
  | error error => rfl
  | ok tree =>
      show (Shape.resolve options ⟨Term.moveAll place tree.terms⟩).mapError Error.invalid =
        ((Shape.resolve options tree).mapError Error.invalid).mapError (Error.move place)
      rw [Shape.resolve, Shape.resolve, ofTree_eq, ofTree_eq, flattenAll_move]
      cases flattenAll options Operand.ofName tree.terms <;> rfl

end Shape

end ArrayShape
