import ArrayShape.Proofs.Viability

/-!
# What a state remembers, and what it rejects

`Follows` says what each token does to a state that it follows. By induction over the tokens, a
state remembers the parentheses that are still open behind them and the word that it read last
(`Leads.behind`). A token that does not follow is rejected in one of four ways: for its argument
list, for its size, for its nesting, or as unexpected with the alternatives of its place.
-/

namespace ArrayShape

/-! ## Parentheses that are still open -/

/-- A parenthesis that is still open: where it stands, and whether a record stands in it. -/
structure Unclosed where
  opening : ByteRange
  isRecord : Bool

namespace Token

/-- The parentheses that are still open behind tokens, which are given with the last one first. The
innermost parenthesis comes first, and that of a record is the one right behind the keyword. -/
def unclosedBehind : List (Spanned Token) → List Unclosed
  | [] => []
  | ⟨range, .openParen⟩ :: before =>
    ⟨range, before.head?.any (·.value = .keyword .record)⟩ :: unclosedBehind before
  | ⟨_, .closeParen⟩ :: before => (unclosedBehind before).tail
  | _ :: before => unclosedBehind before

/-- The parentheses that are still open behind tokens, the innermost first. -/
def unclosed (front : List (Spanned Token)) : List Unclosed :=
  unclosedBehind front.reverse

/-- The number of records that are still open behind tokens. -/
def openRecords (front : List (Spanned Token)) : Nat :=
  (unclosed front).countP Unclosed.isRecord

end Token

namespace Parser

/-- What a token does to a state that it follows. -/
inductive Follows : State → Spanned Token → State → Prop where
  | number (base frames range digits) (value : Spanned UInt64) :
      Follows ⟨base, frames, .operand⟩ ⟨range, .number digits⟩
        ⟨base, frames, .complete (.number value.range value.value)⟩
  | name (base frames range text) :
      Follows ⟨base, frames, .operand⟩ ⟨range, .name text⟩
        ⟨base, frames, .complete (.name range text)⟩
  | keyword (base frames range reserved) :
      Follows ⟨base, frames, .operand⟩ ⟨range, .keyword reserved⟩
        ⟨base, frames, .argument (.opening reserved range)⟩
  | openParen (base frames range) :
      Follows ⟨base, frames, .operand⟩ ⟨range, .openParen⟩
        ⟨base, .group range [] :: frames, .operand⟩
  | opening (base frames range reserved keyword) :
      Follows ⟨base, frames, .argument (.opening reserved keyword)⟩ ⟨range, .openParen⟩
        ⟨base, frames, .argument (firstArgument ⟨keyword, range⟩ reserved)⟩
  | label (base frames range token call before label) :
      label? token = some label →
      Follows ⟨base, frames, .argument (.label call before)⟩ ⟨range, token⟩
        ⟨base, frames, .argument (.equals call before ⟨range, label⟩)⟩
  | equals (base frames range call before label) :
      Follows ⟨base, frames, .argument (.equals call before label)⟩ ⟨range, .equals⟩
        ⟨base, .field call before label :: frames, .operand⟩
  | enumValue (base frames range digits call before value) :
      Follows ⟨base, frames, .argument (.enumValue call before)⟩ ⟨range, .number digits⟩
        ⟨base, frames, .argument (.enumNext call (value :: before))⟩
  | enumComma (base frames range call values) :
      Follows ⟨base, frames, .argument (.enumNext call values)⟩ ⟨range, .comma⟩
        ⟨base, frames, .argument (.enumValue call values)⟩
  | enumClose (base frames range call values) :
      Follows ⟨base, frames, .argument (.enumNext call values)⟩ ⟨range, .closeParen⟩
        ⟨base, frames, .complete (.enum (call.keyword.merge range) values.reverse)⟩
  | lower (base frames range digits call lower) :
      Follows ⟨base, frames, .argument (.lower call)⟩ ⟨range, .number digits⟩
        ⟨base, frames, .argument (.separator call lower)⟩
  | separator (base frames range call lower) :
      Follows ⟨base, frames, .argument (.separator call lower)⟩ ⟨range, .comma⟩
        ⟨base, frames, .argument (.upper call lower)⟩
  | upper (base frames range digits call lower upper) :
      Follows ⟨base, frames, .argument (.upper call lower)⟩ ⟨range, .number digits⟩
        ⟨base, frames, .argument (.closing call lower upper)⟩
  | closing (base frames range call lower upper) :
      Follows ⟨base, frames, .argument (.closing call lower upper)⟩ ⟨range, .closeParen⟩
        ⟨base, frames, .complete (.var (call.keyword.merge range) lower upper)⟩
  | comma (base frames range term) :
      Follows ⟨base, frames, .complete term⟩ ⟨range, .comma⟩
        (readComma ⟨base, frames, .complete term⟩ term)
  | closeParen (base frame outer range term) :
      Follows ⟨base, frame :: outer, .complete term⟩ ⟨range, .closeParen⟩
        ⟨base, outer, .complete (frame.close term range)⟩

section Moves

variable {base : List (Term String)} {frames : List Frame} {found : Spanned Token}
  {following : State}

/-- What the first token of an operand does. -/
theorem follows_of_readOperand
    (h : readOperand 0 ⟨base, frames, .operand⟩ found.value found.range = .ok following) :
    Follows ⟨base, frames, .operand⟩ found following := by
  obtain ⟨range, token⟩ := found
  cases token with
  | number digits =>
      cases hinteger : integer range digits with
      | error error => simp [readOperand, hinteger] at h
      | ok value =>
          simp only [readOperand, hinteger, Except.ok.injEq] at h
          subst h
          exact .number base frames range digits value
  | name text =>
      cases h
      exact .name base frames range text
  | keyword reserved =>
      simp only [readOperand] at h
      split at h
      · cases h
      · cases h
        exact .keyword base frames range reserved
  | openParen =>
      cases h
      exact .openParen base frames range
  | comma | equals | closeParen => cases h

/-- What a token in the arguments of a keyword does. -/
theorem follows_of_readArgument {awaited : Argument}
    (h : readArgument ⟨base, frames, .argument awaited⟩ awaited found.value found.range =
      .ok following) :
    Follows ⟨base, frames, .argument awaited⟩ found following := by
  obtain ⟨range, token⟩ := found
  cases awaited with
  | opening reserved keyword =>
      cases token with
      | openParen =>
          cases h
          exact .opening base frames range reserved keyword
      | _ => cases h
  | label call before =>
      cases hlabel : label? token with
      | none => simp [readArgument, hlabel, unexpected] at h
      | some label =>
          simp only [readArgument, hlabel, Except.ok.injEq] at h
          subst h
          exact .label base frames range token call before label hlabel
  | equals call before label =>
      cases token with
      | equals =>
          cases h
          exact .equals base frames range call before label
      | _ => cases h
  | enumNext call values =>
      cases token with
      | comma =>
          cases h
          exact .enumComma base frames range call values
      | closeParen =>
          cases h
          exact .enumClose base frames range call values
      | _ => cases h
  | separator call lower =>
      cases token with
      | comma =>
          cases h
          exact .separator base frames range call lower
      | _ => cases h
  | closing call lower upper =>
      cases token with
      | closeParen =>
          cases h
          exact .closing base frames range call lower upper
      | _ => cases h
  | enumValue call before | lower call | upper call lower =>
      cases token with
      | number digits =>
          cases hinteger : integer range digits with
          | error error => simp [readArgument, hinteger] at h
          | ok value =>
              simp only [readArgument, hinteger, Except.ok.injEq] at h
              subst h
              constructor
      | _ => cases h

/-- What a token behind a complete operand does. -/
theorem follows_of_readAfter {term : Term String}
    (h : readAfter ⟨base, frames, .complete term⟩ term found.value found.range =
      .ok (.next following)) :
    Follows ⟨base, frames, .complete term⟩ found following := by
  obtain ⟨range, token⟩ := found
  cases token with
  | comma =>
      cases h
      exact .comma base frames range term
  | closeParen =>
      cases frames with
      | nil => cases h
      | cons frame outer =>
          cases h
          exact .closeParen base frame outer range term
  | openParen => cases term <;> cases frames <;> cases h
  | name | number | keyword | equals => cases frames <;> cases h

end Moves

/-- Every token that follows does one of these things. -/
theorem follows_of_follow? {state following : State} {found : Spanned Token}
    (h : state.follow? found = some following) : Follows state found following := by
  obtain ⟨base, frames, phase⟩ := state
  unfold State.follow? at h
  split at h
  · next hstep =>
      cases h
      cases phase with
      | operand =>
          cases hread : readOperand 0 ⟨base, frames, .operand⟩ found.value found.range with
          | error error => simp [step, hread, Except.map] at hstep
          | ok next =>
              simp only [step, hread, Except.map, Except.ok.injEq, Move.next.injEq] at hstep
              exact follows_of_readOperand (hstep ▸ hread)
      | argument awaited =>
          cases hread : readArgument ⟨base, frames, .argument awaited⟩ awaited found.value
            found.range with
          | error error => simp [step, hread, Except.map] at hstep
          | ok next =>
              simp only [step, hread, Except.map, Except.ok.injEq, Move.next.injEq] at hstep
              exact follows_of_readArgument (hstep ▸ hread)
      | complete term => exact follows_of_readAfter hstep
  · cases h
  · cases h

/-! ## What a state remembers of the tokens before it -/

/-- The open parenthesis of a frame. -/
def Frame.unclosed (frame : Frame) : Unclosed :=
  ⟨frame.opening, frame.isRecord⟩

/-- The open parenthesis of the arguments of a keyword, once it is read. -/
def Argument.unclosed : Argument → List Unclosed
  | .opening _ _ => []
  | .label call _ | .equals call _ _ => [⟨call.opening, true⟩]
  | .enumValue call _ | .enumNext call _ | .lower call | .separator call _ | .upper call _
  | .closing call _ _ => [⟨call.opening, false⟩]

/-- The open parenthesis of a phase, if it lies between the parentheses of an argument list. -/
def Phase.unclosed : Phase → List Unclosed
  | .operand | .complete _ => []
  | .argument awaited => awaited.unclosed

/-- The open parentheses of a state, the innermost first. -/
def State.unclosed (state : State) : List Unclosed :=
  state.phase.unclosed ++ state.frames.map Frame.unclosed

/-- What a phase says about the tokens before it, which are given with the last one first: where an
operand is awaited, the last one is not the keyword of a record, and a keyword or name that was
read as the beginning of an operand is the last token. -/
def Phase.Behind (tokens : List (Spanned Token)) : Phase → Prop
  | .operand => ∀ last ∈ tokens.head?, last.value ≠ .keyword .record
  | .argument (.opening reserved keyword) => tokens.head? = some ⟨keyword, .keyword reserved⟩
  | .complete (.name range text) => tokens.head? = some ⟨range, .name text⟩
  | _ => True

/-- The state remembers the tokens before it, which are given with the last one first. -/
structure State.Behind (state : State) (tokens : List (Spanned Token)) : Prop where
  unclosed : Token.unclosedBehind tokens = state.unclosed
  last : state.phase.Behind tokens

/-- A token that follows is remembered. -/
theorem Follows.behind {state following : State} {found : Spanned Token}
    {tokens : List (Spanned Token)} (h : Follows state found following)
    (hbehind : state.Behind tokens) : following.Behind (found :: tokens) := by
  obtain ⟨hunclosed, hlast⟩ := hbehind
  cases h with
  | number | enumValue | enumComma | lower | separator | upper => exact ⟨hunclosed, trivial⟩
  | name | keyword => exact ⟨hunclosed, rfl⟩
  | openParen base frames range =>
      have hgroup : (tokens.head?.any (·.value = .keyword .record)) = false := by
        cases hhead : tokens.head? with
        | none => rfl
        | some last => exact decide_eq_false (hlast last hhead)
      refine ⟨?_, fun last hmem => ?_⟩
      · rw [Token.unclosedBehind, hgroup, hunclosed]
        rfl
      · cases hmem
        nofun
  | opening base frames range reserved keyword =>
      have hkeyword : tokens.head? = some ⟨keyword, .keyword reserved⟩ := hlast
      refine ⟨?_, by cases reserved <;> trivial⟩
      rw [Token.unclosedBehind, hkeyword, hunclosed]
      cases reserved <;> rfl
  | label base frames range token call before label hlabel =>
      cases token with
      | name | keyword => exact ⟨hunclosed, trivial⟩
      | _ => cases hlabel
  | equals =>
      refine ⟨hunclosed, fun last hmem => ?_⟩
      cases hmem
      nofun
  | enumClose | closing =>
      refine ⟨?_, trivial⟩
      rw [Token.unclosedBehind, hunclosed]
      rfl
  | comma base frames range term =>
      have hcomma : ∀ last ∈ (⟨range, Token.comma⟩ :: tokens).head?,
          last.value ≠ .keyword .record := by
        intro last hmem
        cases hmem
        nofun
      cases frames with
      | nil => exact ⟨hunclosed, hcomma⟩
      | cons frame outer =>
          cases frame with
          | group => exact ⟨hunclosed, hcomma⟩
          | field => exact ⟨hunclosed, trivial⟩
  | closeParen base frame outer range term =>
      refine ⟨?_, by cases frame <;> trivial⟩
      rw [Token.unclosedBehind, hunclosed]
      rfl

/-- What every token preserves holds behind all tokens that are read, given with the last one
first. -/
theorem State.read?_invariant (P : State → List (Spanned Token) → Prop)
    (hstep : ∀ state found following tokens, Follows state found following → P state tokens →
      P following (found :: tokens))
    {front tokens : List (Spanned Token)} {first state : State} (hfirst : P first tokens)
    (hread : first.read? front = some state) : P state (front.reverse ++ tokens) := by
  induction front generalizing first tokens with
  | nil =>
      cases hread
      exact hfirst
  | cons found rest ih =>
      rw [State.read?_cons] at hread
      obtain ⟨following, hfollow, hrest⟩ := Option.bind_eq_some_iff.1 hread
      have hfollowing : P following (found :: tokens) :=
        hstep _ _ _ _ (follows_of_follow? hfollow) hfirst
      simpa using ih hfollowing hrest

section Front

variable {front : List (Spanned Token)} {state : State}

/-- The state that tokens lead to remembers them. -/
theorem Leads.behind (h : Leads front state) : state.Behind front.reverse := by
  have hfirst : State.initial.Behind [] := ⟨rfl, nofun⟩
  simpa using State.read?_invariant State.Behind (fun _ _ _ _ => Follows.behind) hfirst h.read

/-- The open parentheses of a state are those behind the tokens that lead to it. -/
theorem Leads.unclosed (h : Leads front state) : Token.unclosed front = state.unclosed :=
  h.behind.unclosed

/-- Where an operand is awaited, the open records are the records among the frames. -/
theorem Leads.openRecords (h : Leads front state) (hphase : state.phase = .operand) :
    Token.openRecords front = state.openRecords := by
  rw [Token.openRecords, h.unclosed, State.unclosed, hphase, State.openRecords]
  exact List.countP_map

end Front

/-! ## Rejections -/

/-- The alternatives that an error lists at a control, where a token is found or the text ends. -/
def Control.alternatives (control : Control) (found : Option Token) : List Expected :=
  match control.place with
  | .operand => Expected.operand
  | .opening _ => [.openParen]
  | .label => [.name]
  | .equals => [.equals]
  | .enumValue | .lower | .upper => [.integer]
  | .enumNext => [.comma, .closeParen]
  | .separator => [.comma]
  | .closing => if found = some .comma then [.closeParen] else [.comma, .closeParen]
  | .complete => if control.frames = [] then [.comma, .endOfInput] else [.comma, .closeParen]

/-- A numeral that fits follows where an integer can follow. -/
theorem Control.next?_number_ne_none {control : Control} {digits : String}
    (h : control.admits .integer) (hfits : Decimal.value digits < UInt64.size) :
    control.next? (.number digits) ≠ none := by
  obtain ⟨frames, place⟩ := control
  cases place with
  | operand | enumValue | lower | upper =>
      simp only [Control.next?, Control.numeral?, if_pos hfits]
      exact Option.some_ne_none _
  | _ => cases h

namespace State

/-- The token opens an argument list behind a name that was read as an operand. -/
def CallsName (state : State) (token : Token) (name : Spanned String) : Prop :=
  token = .openParen ∧ state.phase = .complete (.name name.range name.value)

/-- The token is a numeral that needs more than 64 bits, where an integer can follow. -/
def TooLarge (state : State) (token : Token) : Prop :=
  ∃ digits, token = .number digits ∧ UInt64.size ≤ Decimal.value digits ∧
    state.control.admits .integer

/-- The token begins a record inside too many others. -/
def TooDeep (state : State) (token : Token) : Prop :=
  token = .keyword .record ∧ state.phase = .operand ∧ maxRecordDepth ≤ state.openRecords

variable {state : State} {found : Spanned Token}

/-- An argument list behind a name is rejected for the name. -/
theorem rejection_of_callsName {name : Spanned String} (h : state.CallsName found.value name) :
    state.rejection found = .unknownConstructor name.range name.value := by
  obtain ⟨base, frames, phase⟩ := state
  obtain ⟨range, token⟩ := found
  obtain ⟨htoken, hphase⟩ := h
  cases htoken
  cases hphase
  rfl

/-- A numeral that is too large is rejected for its size. -/
theorem rejection_of_tooLarge (h : state.TooLarge found.value) :
    state.rejection found = .integerTooLarge found.range := by
  obtain ⟨base, frames, phase⟩ := state
  obtain ⟨range, token⟩ := found
  obtain ⟨digits, htoken, hlarge, hadmits⟩ := h
  cases htoken
  have hinteger : integer range digits = .error (.integerTooLarge range) := by
    rw [integer, Decimal.read?_eq_none_iff.2 hlarge]
  cases phase with
  | operand => simp only [rejection, step, readOperand, hinteger, Except.map]
  | argument awaited =>
      cases awaited with
      | enumValue | lower | upper =>
          simp only [rejection, step, readArgument, hinteger, Except.map]
      | _ => cases hadmits
  | complete term => cases hadmits

/-- A record inside too many others is rejected for its nesting. -/
theorem rejection_of_tooDeep (h : state.TooDeep found.value) :
    state.rejection found = .nestingTooDeep found.range := by
  obtain ⟨base, frames, phase⟩ := state
  obtain ⟨range, token⟩ := found
  obtain ⟨htoken, hphase, hdeep⟩ := h
  cases htoken
  cases hphase
  have hread : readOperand 0 ⟨base, frames, .operand⟩ (.keyword .record) range =
      .error (.nestingTooDeep range) := if_pos ⟨rfl, by rwa [Nat.zero_add]⟩
  simp only [rejection, step, hread, Except.map]

/-- Every other token that does not follow is unexpected, with the alternatives of its place. -/
theorem rejection_eq_unexpectedToken (h : state.follow? found = none)
    (hname : ∀ name, ¬ state.CallsName found.value name) (hlarge : ¬ state.TooLarge found.value)
    (hdeep : ¬ state.TooDeep found.value) :
    state.rejection found =
      .unexpectedToken found.range found.value (state.control.alternatives found.value) := by
  have hnext : state.control.next? found.value = none := by
    rw [← control_follow?, h, Option.map_none]
  have hnumber : ∀ digits, found.value = .number digits → ¬ state.control.admits .integer := by
    intro digits hdigits hadmits
    refine Control.next?_number_ne_none hadmits (Nat.lt_of_not_le fun hle => ?_) (hdigits ▸ hnext)
    exact hlarge ⟨digits, hdigits, hle, hadmits⟩
  obtain ⟨base, frames, phase⟩ := state
  obtain ⟨range, token⟩ := found
  cases phase with
  | operand =>
      cases token with
      | number digits => exact absurd rfl (hnumber digits rfl)
      | name | openParen => cases hnext
      | keyword reserved =>
          by_cases hfull : reserved = .record ∧
              maxRecordDepth ≤ (frames.map Frame.isRecord).count true
          · obtain ⟨rfl, hcount⟩ := hfull
            rw [count_isRecord] at hcount
            exact absurd ⟨rfl, rfl, hcount⟩ hdeep
          · exact nomatch (if_neg hfull).symm.trans hnext
      | comma | equals | closeParen => rfl
  | argument awaited =>
      cases awaited with
      | opening =>
          cases token with
          | openParen => cases hnext
          | _ => rfl
      | label =>
          cases token with
          | name | keyword => cases hnext
          | _ => rfl
      | equals =>
          cases token with
          | equals => cases hnext
          | _ => rfl
      | enumNext =>
          cases token with
          | comma | closeParen => cases hnext
          | _ => rfl
      | separator =>
          cases token with
          | comma => cases hnext
          | _ => rfl
      | closing =>
          cases token with
          | closeParen => cases hnext
          | _ => rfl
      | enumValue | lower | upper =>
          cases token with
          | number digits => exact absurd rfl (hnumber digits rfl)
          | _ => rfl
  | complete term =>
      cases token with
      | comma => cases hnext
      | openParen =>
          cases term with
          | name nameRange text => exact absurd ⟨rfl, rfl⟩ (hname ⟨nameRange, text⟩)
          | _ => cases frames <;> rfl
      | closeParen =>
          cases frames with
          | nil => rfl
          | cons => cases hnext
      | _ => cases frames <;> rfl

/-- The four ways in which a token that does not follow is rejected. -/
theorem rejection_cases (h : state.follow? found = none) :
    (∃ name, state.CallsName found.value name ∧
      state.rejection found = .unknownConstructor name.range name.value) ∨
    (state.TooLarge found.value ∧ state.rejection found = .integerTooLarge found.range) ∨
    (state.TooDeep found.value ∧ state.rejection found = .nestingTooDeep found.range) ∨
    ((∀ name, ¬ state.CallsName found.value name) ∧ ¬ state.TooLarge found.value ∧
      ¬ state.TooDeep found.value ∧ state.rejection found =
        .unexpectedToken found.range found.value (state.control.alternatives found.value)) := by
  by_cases hname : ∃ name, state.CallsName found.value name
  · obtain ⟨name, hname⟩ := hname
    exact .inl ⟨name, hname, rejection_of_callsName hname⟩
  by_cases hlarge : state.TooLarge found.value
  · exact .inr (.inl ⟨hlarge, rejection_of_tooLarge hlarge⟩)
  by_cases hdeep : state.TooDeep found.value
  · exact .inr (.inr (.inl ⟨hdeep, rejection_of_tooDeep hdeep⟩))
  rw [not_exists] at hname
  exact .inr (.inr (.inr
    ⟨hname, hlarge, hdeep, rejection_eq_unexpectedToken h hname hlarge hdeep⟩))

end State

/-- A text that ends inside parentheses that can be closed has the innermost one unclosed. Anywhere
else where it cannot end, its end is unexpected. -/
theorem finish_eq_error {endPosition : Nat} {state : State} {error : ParseError}
    (h : finish endPosition state = .error error) :
    (state.control.admits .closeParen ∧ ∃ innermost outer, state.unclosed = innermost :: outer ∧
      error = .unclosedParen innermost.opening endPosition) ∨
    (¬ state.control.admits .closeParen ∧
      error = .unexpectedEnd endPosition (state.control.alternatives none)) := by
  obtain ⟨base, frames, phase⟩ := state
  cases phase with
  | operand =>
      cases h
      exact .inr ⟨nofun, rfl⟩
  | argument awaited =>
      cases awaited with
      | enumNext | closing =>
          cases h
          exact .inl ⟨rfl, _, _, rfl, rfl⟩
      | _ =>
          cases h
          exact .inr ⟨nofun, rfl⟩
  | complete term =>
      cases frames with
      | nil => cases h
      | cons frame outer =>
          cases h
          exact .inl ⟨rfl, _, _, rfl, rfl⟩

end Parser

end ArrayShape
