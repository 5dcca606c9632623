import ArrayShape.Proofs.Lexing
import ArrayShape.Tree.Parser

/-!
# What decides which tokens can follow

`State.read?` moves the automaton of `ArrayShape.Tree.Parser` over tokens, up to the first one that
does not fit (`exists_read`). A `Control` is what a state remembers that bears on which tokens can
follow: for each open frame whether it is a record, and the place that the automaton stands in.
Tokens move a state as they move its control (`control_read?`), and every control has a completion
(`read?_completion`).
-/

namespace ArrayShape

/-- The item that a token is in its text. -/
def Spanned.lexeme (found : Spanned Token) : Lexeme :=
  .token found.value found.range

namespace Parser

/-! ## Moving over tokens -/

/-- The state behind a token, if the token is read. -/
def State.follow? (state : State) (found : Spanned Token) : Option State :=
  match step 0 state found.value found.range with
  | .ok (.next following) => some following
  | .ok (.stop _) | .error _ => none

/-- The error with which a token that does not follow a state is rejected. A token that stands
behind the whole list of operands is rejected there. -/
def State.rejection (state : State) (found : Spanned Token) : ParseError :=
  match step 0 state found.value found.range with
  | .error error => error
  | .ok _ => .unexpectedToken found.range found.value [.comma, .endOfInput]

/-- The state behind tokens, if all of them are read. -/
def State.read? (state : State) (front : List (Spanned Token)) : Option State :=
  front.foldlM State.follow? state

@[simp] theorem State.read?_nil (state : State) : state.read? [] = some state := rfl

@[simp] theorem State.read?_cons (state : State) (found : Spanned Token)
    (rest : List (Spanned Token)) :
    state.read? (found :: rest) = (state.follow? found).bind (·.read? rest) :=
  List.foldlM_cons

theorem State.read?_append (state : State) (first second : List (Spanned Token)) :
    state.read? (first ++ second) = (state.read? first).bind (·.read? second) :=
  List.foldlM_append

/-- Tokens that are read are moved over, whatever stands behind them. -/
theorem run_read {endPosition : Nat} {state following : State} {front : List (Spanned Token)}
    (h : state.read? front = some following) (tail : List Lexeme) :
    run 0 endPosition state (front.map Spanned.lexeme ++ tail) =
      run 0 endPosition following tail := by
  induction front generalizing state with
  | nil =>
      cases h
      rfl
  | cons found rest ih =>
      rw [State.read?_cons] at h
      obtain ⟨middle, hfollow, hrest⟩ := Option.bind_eq_some_iff.1 h
      rw [← ih hrest]
      unfold State.follow? at hfollow
      split at hfollow
      · next hstep =>
          cases hfollow
          simp only [List.map_cons, List.cons_append, Spanned.lexeme, run, hstep]
      · cases hfollow
      · cases hfollow

/-- The automaton moves over the first items of a text until one of them is not read. -/
theorem exists_read (state : State) (items : List Lexeme) :
    ∃ front following tail, items = front.map Spanned.lexeme ++ tail ∧
      state.read? front = some following ∧
        ∀ found rest, tail = Spanned.lexeme found :: rest → following.follow? found = none := by
  induction items generalizing state with
  | nil => exact ⟨[], state, [], rfl, rfl, nofun⟩
  | cons item rest ih =>
      cases item with
      | stray range => exact ⟨[], state, .stray range :: rest, rfl, rfl, nofun⟩
      | token token range =>
          cases hfollow : state.follow? ⟨range, token⟩ with
          | none =>
              refine ⟨[], state, .token token range :: rest, rfl, rfl, ?_⟩
              intro found others h
              cases h
              exact hfollow
          | some middle =>
              obtain ⟨front, following, tail, rfl, hread, htail⟩ := ih middle
              refine ⟨⟨range, token⟩ :: front, following, tail, rfl, ?_, htail⟩
              rw [State.read?_cons, hfollow]
              exact hread

/-! ## What decides which tokens can follow -/

/-- A place where the automaton waits for a token. -/
inductive Place where
  | operand
  | opening (reserved : Keyword)
  | label
  | equals
  | enumValue
  | enumNext
  | lower
  | separator
  | upper
  | closing
  | complete
deriving DecidableEq

/-- A place, and the open frames around it with the innermost first: whether each is a record. -/
structure Control where
  frames : List Bool
  place : Place
deriving DecidableEq

/-- The place of an argument. -/
def Argument.place : Argument → Place
  | .opening reserved _ => .opening reserved
  | .label _ _ => .label
  | .equals _ _ _ => .equals
  | .enumValue _ _ => .enumValue
  | .enumNext _ _ => .enumNext
  | .lower _ => .lower
  | .separator _ _ => .separator
  | .upper _ _ => .upper
  | .closing _ _ _ => .closing

/-- The place of a phase. -/
def Phase.place : Phase → Place
  | .operand => .operand
  | .argument awaited => awaited.place
  | .complete _ => .complete

/-- The control of a state. -/
def State.control (state : State) : Control :=
  ⟨state.frames.map Frame.isRecord, state.phase.place⟩

/-- An operand is awaited in the phase of its name alone. -/
theorem State.place_eq_operand_iff {state : State} :
    state.control.place = .operand ↔ state.phase = .operand := by
  obtain ⟨base, frames, phase⟩ := state
  cases phase with
  | operand => exact iff_of_true rfl rfl
  | argument awaited => cases awaited <;> exact iff_of_false nofun nofun
  | complete term => exact iff_of_false nofun nofun

namespace Control

/-- The control in front of a list of operands. -/
def initial : Control :=
  ⟨[], .operand⟩

/-- The control behind a list of operands. -/
def final : Control :=
  ⟨[], .complete⟩

/-- The place behind a numeral, if it fits in a word. -/
def numeral? (frames : List Bool) (digits : String) (place : Place) : Option Control :=
  if Decimal.value digits < UInt64.size then some ⟨frames, place⟩ else none

/-- The place behind the parenthesis that follows a keyword. -/
def firstPlace : Keyword → Place
  | .record => .label
  | .enum => .enumValue
  | .var => .lower

/-- The control behind a comma that follows a complete operand. -/
def goOn : List Bool → Control
  | true :: outer => ⟨outer, .label⟩
  | frames => ⟨frames, .operand⟩

/-- The control behind a parenthesis that closes the innermost frame, if a frame is open. -/
def close? : List Bool → Option Control
  | [] => none
  | _ :: outer => some ⟨outer, .complete⟩

/-- The control behind a token, if the token can follow. -/
def next? : Control → Token → Option Control
  | ⟨frames, .operand⟩, .number digits => numeral? frames digits .complete
  | ⟨frames, .operand⟩, .name _ => some ⟨frames, .complete⟩
  | ⟨frames, .operand⟩, .keyword reserved =>
    if reserved = .record ∧ maxRecordDepth ≤ frames.count true then none
    else some ⟨frames, .opening reserved⟩
  | ⟨frames, .operand⟩, .openParen => some ⟨false :: frames, .operand⟩
  | ⟨frames, .opening reserved⟩, .openParen => some ⟨frames, firstPlace reserved⟩
  | ⟨frames, .label⟩, .name _ | ⟨frames, .label⟩, .keyword _ => some ⟨frames, .equals⟩
  | ⟨frames, .equals⟩, .equals => some ⟨true :: frames, .operand⟩
  | ⟨frames, .enumValue⟩, .number digits => numeral? frames digits .enumNext
  | ⟨frames, .enumNext⟩, .comma => some ⟨frames, .enumValue⟩
  | ⟨frames, .enumNext⟩, .closeParen => some ⟨frames, .complete⟩
  | ⟨frames, .lower⟩, .number digits => numeral? frames digits .separator
  | ⟨frames, .separator⟩, .comma => some ⟨frames, .upper⟩
  | ⟨frames, .upper⟩, .number digits => numeral? frames digits .closing
  | ⟨frames, .closing⟩, .closeParen => some ⟨frames, .complete⟩
  | ⟨frames, .complete⟩, .comma => some (goOn frames)
  | ⟨frames, .complete⟩, .closeParen => close? frames
  | _, _ => none

/-- The control behind tokens, if all of them can follow. -/
def read? (control : Control) (tokens : List Token) : Option Control :=
  tokens.foldlM next? control

@[simp] theorem read?_nil (control : Control) : control.read? [] = some control := rfl

@[simp] theorem read?_cons (control : Control) (token : Token) (rest : List Token) :
    control.read? (token :: rest) = (control.next? token).bind (·.read? rest) :=
  List.foldlM_cons

theorem read?_append (control : Control) (first second : List Token) :
    control.read? (first ++ second) = (control.read? first).bind (·.read? second) :=
  List.foldlM_append

end Control

/-- Records are counted by their marks. -/
theorem count_isRecord (frames : List Frame) :
    (frames.map Frame.isRecord).count true = frames.countP Frame.isRecord := by
  rw [List.count, List.countP_map]
  exact List.countP_congr fun frame _ => by cases frame <;> rfl

/-- A numeral moves a state as it moves its control, if the state goes on with its word when it
has one, and stops otherwise. -/
theorem control_numeral {state : State} {frames : List Bool} {place : Place} {range : ByteRange}
    {digits : String}
    (hword : ∀ value, integer range digits = .ok value →
      (state.follow? ⟨range, .number digits⟩).map State.control = some ⟨frames, place⟩)
    (hnone : ∀ error, integer range digits = .error error →
      state.follow? ⟨range, .number digits⟩ = none) :
    (state.follow? ⟨range, .number digits⟩).map State.control =
      Control.numeral? frames digits place := by
  by_cases hfits : Decimal.value digits < UInt64.size
  · obtain ⟨value, hvalue⟩ : ∃ value, integer range digits = .ok value := by
      simp [integer, Decimal.read?, hfits]
    rw [hword value hvalue, Control.numeral?, if_pos hfits]
  · have hlarge : integer range digits = .error (.integerTooLarge range) := by
      simp [integer, Decimal.read?, hfits]
    rw [hnone _ hlarge, Control.numeral?, if_neg hfits, Option.map_none]

/-- An operand's first token moves a state as it moves its control. -/
theorem control_operand (base : List (Term String)) (frames : List Frame)
    (found : Spanned Token) :
    (State.follow? ⟨base, frames, .operand⟩ found).map State.control =
      Control.next? ⟨frames.map Frame.isRecord, .operand⟩ found.value := by
  obtain ⟨range, token⟩ := found
  cases token with
  | number digits =>
      refine control_numeral (fun value hvalue => ?_) (fun error herror => ?_)
      · simp only [State.follow?, step, readOperand, hvalue, Except.map]
        rfl
      · simp only [State.follow?, step, readOperand, herror, Except.map]
  | keyword reserved =>
      by_cases hdeep : reserved = .record ∧ maxRecordDepth ≤ frames.countP Frame.isRecord
      · simp [State.follow?, step, readOperand, State.openRecords, Except.map, Control.next?,
          count_isRecord, hdeep]
      · simp [State.follow?, step, readOperand, State.openRecords, Except.map, Control.next?,
          count_isRecord, hdeep, State.control, Phase.place, Argument.place]
  | name text => rfl
  | openParen => rfl
  | comma => rfl
  | equals => rfl
  | closeParen => rfl

/-- A token in the arguments of a keyword moves a state as it moves its control. -/
theorem control_argument (base : List (Term String)) (frames : List Frame) (awaited : Argument)
    (found : Spanned Token) :
    (State.follow? ⟨base, frames, .argument awaited⟩ found).map State.control =
      Control.next? ⟨frames.map Frame.isRecord, awaited.place⟩ found.value := by
  obtain ⟨range, token⟩ := found
  cases awaited with
  | opening reserved keyword => cases token <;> cases reserved <;> rfl
  | label call before => cases token <;> rfl
  | equals call before label => cases token <;> rfl
  | enumNext call values => cases token <;> rfl
  | separator call lower => cases token <;> rfl
  | closing call lower upper => cases token <;> rfl
  | enumValue call before | lower call | upper call lower =>
      cases token with
      | number digits =>
          refine control_numeral (fun value hvalue => ?_) (fun error herror => ?_)
          · simp only [State.follow?, step, readArgument, hvalue, Except.map]
            rfl
          · simp only [State.follow?, step, readArgument, herror, Except.map]
      | _ => rfl

/-- A token behind a complete operand moves a state as it moves its control. -/
theorem control_complete (base : List (Term String)) (frames : List Frame) (term : Term String)
    (found : Spanned Token) :
    (State.follow? ⟨base, frames, .complete term⟩ found).map State.control =
      Control.next? ⟨frames.map Frame.isRecord, .complete⟩ found.value := by
  obtain ⟨range, token⟩ := found
  cases frames with
  | nil => cases token <;> cases term <;> rfl
  | cons frame outer => cases token <;> cases frame <;> cases term <;> rfl

/-- A token moves a state as it moves its control. -/
theorem control_follow? (state : State) (found : Spanned Token) :
    (state.follow? found).map State.control = state.control.next? found.value := by
  obtain ⟨base, frames, phase⟩ := state
  cases phase with
  | operand => exact control_operand base frames found
  | argument awaited => exact control_argument base frames awaited found
  | complete term => exact control_complete base frames term found

/-- Tokens move a state as they move its control. -/
theorem control_read? (state : State) (front : List (Spanned Token)) :
    (state.read? front).map State.control = state.control.read? (front.map Spanned.value) := by
  induction front generalizing state with
  | nil => rfl
  | cons found rest ih =>
      rw [State.read?_cons, List.map_cons, Control.read?_cons, ← control_follow?]
      cases state.follow? found with
      | none => rfl
      | some following => exact ih following

/-! ## Completions -/

/-- The tokens that complete an operand that has been read up to a place. -/
def Place.completion : Place → List Token
  | .operand => [.number "0"]
  | .opening .record => [.openParen, .name "a", .equals, .number "0", .closeParen]
  | .opening .enum => [.openParen, .number "0", .closeParen]
  | .opening .var => [.openParen, .number "0", .comma, .number "0", .closeParen]
  | .label => [.name "a", .equals, .number "0", .closeParen]
  | .equals => [.equals, .number "0", .closeParen]
  | .enumValue => [.number "0", .closeParen]
  | .enumNext => [.closeParen]
  | .lower => [.number "0", .comma, .number "0", .closeParen]
  | .separator => [.comma, .number "0", .closeParen]
  | .upper => [.number "0", .closeParen]
  | .closing => [.closeParen]
  | .complete => []

/-- The completion of a place leads to a complete operand inside the same frames. -/
theorem Place.read?_completion (frames : List Bool) (place : Place) :
    Control.read? ⟨frames, place⟩ place.completion = some ⟨frames, .complete⟩ := by
  cases place with
  | opening reserved => cases reserved <;> rfl
  | _ => rfl

/-- A text can hold the completion of a place. -/
theorem Place.completion_proper (place : Place) : ∀ token ∈ place.completion, token.Proper := by
  cases place with
  | opening reserved => cases reserved <;> decide
  | _ => decide

namespace Control

/-- The tokens that complete a list of operands that has been read up to a control: those that
complete the operand, and a closing parenthesis for each open frame. -/
def completion (control : Control) : List Token :=
  control.place.completion ++ control.frames.map fun _ => .closeParen

/-- The completion of a control leads to its end. -/
theorem read?_completion (control : Control) : control.read? control.completion = some final := by
  rw [completion, read?_append, Place.read?_completion, Option.bind_some]
  induction control.frames with
  | nil => rfl
  | cons frame outer ih => cases frame <;> exact ih

/-- A text can hold the completion of a control. -/
theorem completion_proper (control : Control) :
    ∀ token ∈ control.completion, token.Proper := by
  intro token htoken
  rcases List.mem_append.1 htoken with hplace | hframe
  · exact control.place.completion_proper token hplace
  · obtain ⟨-, -, rfl⟩ := List.mem_map.1 hframe
    trivial

end Control

end Parser

namespace Tree

open ArrayShape.Parser

section Halt

variable {endPosition : Nat} {front : List (Spanned Token)} {state : State}

/-- Items end where the automaton has read all of them. -/
theorem ofLexemes_end (hread : State.initial.read? front = some state) :
    ofLexemes endPosition (front.map Spanned.lexeme) = (finish endPosition state).map Tree.mk := by
  rw [ofLexemes, ← List.append_nil (front.map Spanned.lexeme), run_read hread, run]
  cases finish endPosition state <;> rfl

/-- Items are rejected at a stray character. -/
theorem ofLexemes_stray (hread : State.initial.read? front = some state) (range : ByteRange)
    (rest : List Lexeme) :
    ofLexemes endPosition (front.map Spanned.lexeme ++ .stray range :: rest) =
      .error (.strayCharacter range) := by
  rw [ofLexemes, run_read hread, run]

/-- Items are rejected at a token that does not follow. -/
theorem ofLexemes_rejection (hread : State.initial.read? front = some state)
    {found : Spanned Token} (hfollow : state.follow? found = none) (rest : List Lexeme) :
    ofLexemes endPosition (front.map Spanned.lexeme ++ found.lexeme :: rest) =
      .error (state.rejection found) := by
  unfold State.follow? at hfollow
  rw [ofLexemes, run_read hread, Spanned.lexeme, run, State.rejection]
  split at hfollow
  · cases hfollow
  · next hstep =>
      rw [hstep]
      rfl
  · next hstep => rw [hstep]

end Halt

/-- A list of operands may end in the states behind a complete operand outside all frames. -/
theorem finish_ok_iff {endPosition : Nat} {state : State} :
    (∃ terms, finish endPosition state = .ok terms) ↔ state.control = .final := by
  obtain ⟨base, frames, phase⟩ := state
  cases phase with
  | operand => simp [finish, State.control, Control.final, Phase.place]
  | argument awaited =>
      cases awaited <;> simp [finish, State.control, Control.final, Phase.place, Argument.place]
  | complete term =>
      cases frames <;> simp [finish, State.control, Control.final, Phase.place]

/-- Items are read as a tree exactly when the automaton moves over all of them to the end of a list
of operands. -/
theorem ofLexemes_ok_iff {endPosition : Nat} {items : List Lexeme} :
    (∃ tree, ofLexemes endPosition items = .ok tree) ↔
      ∃ front state, items = front.map Spanned.lexeme ∧ State.initial.read? front = some state ∧
        state.control = .final := by
  constructor
  · intro h
    obtain ⟨tree, htree⟩ := h
    obtain ⟨front, state, tail, rfl, hread, hhalt⟩ := exists_read .initial items
    cases tail with
    | nil =>
        rw [List.append_nil, ofLexemes_end hread] at htree
        cases hfinish : finish endPosition state with
        | error error => simp [hfinish, Except.map] at htree
        | ok terms =>
            exact ⟨front, state, List.append_nil _, hread, finish_ok_iff.1 ⟨terms, hfinish⟩⟩
    | cons item rest =>
        cases item with
        | stray range => simp [ofLexemes_stray hread] at htree
        | token token range =>
            have hnone : state.follow? ⟨range, token⟩ = none := hhalt ⟨range, token⟩ rest rfl
            have hitem : Lexeme.token token range = Spanned.lexeme ⟨range, token⟩ := rfl
            simp [hitem, ofLexemes_rejection hread hnone] at htree
  · intro h
    obtain ⟨front, state, rfl, hread, hcontrol⟩ := h
    obtain ⟨terms, hfinish⟩ := finish_ok_iff.2 hcontrol
    exact ⟨⟨terms⟩, by rw [ofLexemes_end hread, hfinish]; rfl⟩

end Tree

end ArrayShape
