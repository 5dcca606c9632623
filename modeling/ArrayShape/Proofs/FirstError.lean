import ArrayShape.Proofs.Rejection

/-!
# Where a text stops being well formed

The error of a text sits where its longest viable sequence of tokens ends (`firstError_of_parse`).
`FirstError` says which error it is, in terms of the tokens alone: by what stands behind the
sequence, and by which alternatives can continue it.
-/

namespace ArrayShape

/-! ## Tokens with an error of their own -/

namespace Token

/-- The token opens an argument list behind a name that begins an operand. -/
def CallsName (front : List (Spanned Token)) (token : Token) (name : Spanned String) : Prop :=
  token = .openParen ∧ ∃ before, front = before ++ [⟨name.range, .name name.value⟩] ∧
    OperandMayFollow (before.map Spanned.value)

/-- The token is a numeral that needs more than 64 bits, where an integer can follow. -/
def TooLarge (front : List (Spanned Token)) (token : Token) : Prop :=
  ∃ digits, token = .number digits ∧ UInt64.size ≤ Decimal.value digits ∧
    Continues (front.map Spanned.value) .integer

/-- The token begins a record where an operand can follow, inside too many others. -/
def TooDeep (front : List (Spanned Token)) (token : Token) : Prop :=
  token = .keyword .record ∧ OperandMayFollow (front.map Spanned.value) ∧
    maxRecordDepth ≤ openRecords front

end Token

namespace Parser

variable {front : List (Spanned Token)} {state : State} {found : Spanned Token}

/-- Tokens lead to a state through the state that all but the last of them lead to. -/
theorem leads_append_iff :
    Leads (front ++ [found]) state ↔
      ∃ before, Leads front before ∧ found.value.Proper ∧ before.follow? found = some state := by
  constructor
  · intro h
    obtain ⟨hproper, hread⟩ := h
    rw [List.map_append, List.forall_mem_append, List.map_singleton,
      List.forall_mem_singleton] at hproper
    rw [State.read?_append] at hread
    obtain ⟨before, hbefore, hlast⟩ := Option.bind_eq_some_iff.1 hread
    refine ⟨before, ⟨hproper.1, hbefore⟩, hproper.2, ?_⟩
    simpa using hlast
  · intro h
    obtain ⟨before, ⟨hproper, hread⟩, hlast, hfollow⟩ := h
    refine ⟨?_, by simp [State.read?_append, hread, hfollow]⟩
    rw [List.map_append, List.forall_mem_append, List.map_singleton, List.forall_mem_singleton]
    exact ⟨hproper, hlast⟩

/-- The tokens alone say whether an argument list stands behind a name that begins an operand. -/
theorem Leads.callsName_iff (h : Leads front state) {token : Token} {name : Spanned String} :
    Token.CallsName front token name ↔ state.CallsName token name := by
  refine and_congr_right fun _ => ⟨fun hname => ?_, fun hphase => ?_⟩
  · obtain ⟨before, rfl, hoperand⟩ := hname
    obtain ⟨⟨base, frames, phase⟩, hbefore, -, hfollow⟩ := leads_append_iff.1 h
    have hphase : phase = .operand := hbefore.operandMayFollow_iff.1 hoperand
    subst hphase
    cases hfollow
    rfl
  · have hlast : state.phase.Behind front.reverse := h.behind.last
    rw [hphase] at hlast
    change front.reverse.head? = some _ at hlast
    rw [List.head?_reverse, List.getLast?_eq_some_iff] at hlast
    obtain ⟨before, rfl⟩ := hlast
    obtain ⟨previous, hprevious, -, hfollow⟩ := leads_append_iff.1 h
    refine ⟨before, rfl, hprevious.operandMayFollow_iff.2 ?_⟩
    -- A name that was read as a label is not in a complete operand.
    cases follows_of_follow? hfollow with
    | name => rfl
    | label => cases hphase

/-- The tokens alone say whether a numeral that is too large stands where an integer can follow. -/
theorem Leads.tooLarge_iff (h : Leads front state) {token : Token} :
    Token.TooLarge front token ↔ state.TooLarge token := by
  rw [Token.TooLarge, State.TooLarge, h.continues_iff]

/-- The tokens alone say whether a record lies inside too many others. -/
theorem Leads.tooDeep_iff (h : Leads front state) {token : Token} :
    Token.TooDeep front token ↔ state.TooDeep token := by
  rw [Token.TooDeep, State.TooDeep, h.operandMayFollow_iff]
  refine and_congr_right fun _ => and_congr_right fun hphase => ?_
  rw [h.openRecords hphase]

end Parser

/-! ## The first error -/

/-- Among the tokens at the beginning of items, the longest viable sequence is that in front, and
the other items are behind it. -/
structure Longest (items : List Lexeme) (front : List (Spanned Token)) (tail : List Lexeme) :
    Prop where
  split : items = front.map Spanned.lexeme ++ tail
  viable : Token.Viable (front.map Spanned.value)
  longest : ∀ more rest, tail = more.map Spanned.lexeme ++ rest →
    Token.Viable ((front ++ more).map Spanned.value) → more = []

/-- The error of a text that is not well formed, by the longest viable sequence of tokens at its
beginning and the items behind it. -/
inductive FirstError (endPosition : Nat) (front : List (Spanned Token)) :
    List Lexeme → ParseError → Prop where
  /-- A stray character is next. -/
  | strayCharacter (range rest) :
      FirstError endPosition front (.stray range :: rest) (.strayCharacter range)
  /-- An argument list is next, behind a name. -/
  | unknownConstructor (found : Spanned Token) (name : Spanned String) (rest) :
      Token.CallsName front found.value name →
      FirstError endPosition front (found.lexeme :: rest)
        (.unknownConstructor name.range name.value)
  /-- A numeral is next that does not fit in 64 bits. -/
  | integerTooLarge (found : Spanned Token) (rest) :
      Token.TooLarge front found.value →
      FirstError endPosition front (found.lexeme :: rest) (.integerTooLarge found.range)
  /-- A record is next inside too many others. -/
  | nestingTooDeep (found : Spanned Token) (rest) :
      Token.TooDeep front found.value →
      FirstError endPosition front (found.lexeme :: rest) (.nestingTooDeep found.range)
  /-- Any other token is next. -/
  | unexpectedToken (found : Spanned Token) (rest expected) :
      (∀ name, ¬ Token.CallsName front found.value name) →
      ¬ Token.TooLarge front found.value →
      ¬ Token.TooDeep front found.value →
      FirstError endPosition front (found.lexeme :: rest)
        (.unexpectedToken found.range found.value expected)
  /-- The text ends where the innermost open parenthesis can be closed. -/
  | unclosedParen (innermost : Unclosed) (outer) :
      Token.unclosed front = innermost :: outer →
      Token.Continues (front.map Spanned.value) .closeParen →
      FirstError endPosition front [] (.unclosedParen innermost.opening endPosition)
  /-- The text ends elsewhere. -/
  | unexpectedEnd (expected) :
      ¬ Token.Continues (front.map Spanned.value) .closeParen →
      FirstError endPosition front [] (.unexpectedEnd endPosition expected)

section Longest

open ArrayShape.Parser

variable {source : String} {front : List (Spanned Token)} {tail : List Lexeme}

/-- The longest viable sequence of tokens leads to a state that the next token does not follow. -/
theorem Longest.exists_leads (h : Longest (Lexeme.ofText source) front tail) :
    ∃ state, Leads front state ∧
      ∀ found rest, tail = Spanned.lexeme found :: rest → state.follow? found = none := by
  obtain ⟨hsplit, hviable, hlongest⟩ := h
  obtain ⟨state, hleads⟩ := viable_iff_leads.1 hviable
  refine ⟨state, hleads, fun found rest htail => ?_⟩
  have hproper : found.value.Proper := by
    have hmem : found.lexeme ∈ Lexeme.ofText source := by simp [hsplit, htail]
    exact Lexer.lexemesFrom_proper hmem
  cases hfollow : state.follow? found with
  | none => rfl
  | some following =>
      have hmore : Token.Viable ((front ++ [found]).map Spanned.value) :=
        (hleads.viable_append_iff hproper).2 ⟨following, hfollow⟩
      cases hlongest [found] rest htail hmore

/-- Tokens that lead to a state that the next token does not follow are the longest viable
sequence. -/
theorem Longest.of_leads {state : State} {items : List Lexeme} (h : Leads front state)
    (hsplit : items = front.map Spanned.lexeme ++ tail)
    (hhalt : ∀ found rest, tail = Spanned.lexeme found :: rest → state.follow? found = none) :
    Longest items front tail := by
  refine ⟨hsplit, viable_iff_leads.2 ⟨state, h⟩, ?_⟩
  intro more rest htail hviable
  cases more with
  | nil => rfl
  | cons found others =>
      obtain ⟨final, -, hread⟩ := viable_iff_leads.1 hviable
      rw [State.read?_append, h.read, Option.bind_some, State.read?_cons,
        hhalt found _ htail] at hread
      cases hread

/-- Every text begins with a longest viable sequence of tokens. -/
theorem exists_longest (source : String) :
    ∃ front tail, Longest (Lexeme.ofText source) front tail := by
  obtain ⟨front, state, tail, hsplit, hread, hhalt⟩ := exists_read .initial (Lexeme.ofText source)
  have hproper : ∀ token ∈ front.map Spanned.value, token.Proper := by
    intro token htoken
    obtain ⟨found, hfound, rfl⟩ := List.mem_map.1 htoken
    have hmem : found.lexeme ∈ Lexeme.ofText source := by
      rw [hsplit]
      exact List.mem_append_left _ (List.mem_map_of_mem hfound)
    exact Lexer.lexemesFrom_proper hmem
  have hleads : Leads front state := ⟨hproper, hread⟩
  exact ⟨front, tail, Longest.of_leads hleads hsplit hhalt⟩

/-- A text that is not read has its error at the end, at a stray character, or at a token that does
not follow the longest viable sequence of tokens. -/
theorem Longest.error_cases (h : Longest (Lexeme.ofText source) front tail) {error : ParseError}
    (herror : Tree.parse source = .error error) :
    ∃ state, Leads front state ∧
      (tail = [] ∧ finish source.utf8ByteSize state = .error error ∨
        (∃ range rest, tail = .stray range :: rest ∧ error = .strayCharacter range) ∨
        ∃ found rest, tail = Spanned.lexeme found :: rest ∧ state.follow? found = none ∧
          error = state.rejection found) := by
  obtain ⟨state, hleads, hhalt⟩ := h.exists_leads
  refine ⟨state, hleads, ?_⟩
  rw [Tree.parse, h.split] at herror
  match tail with
  | [] =>
      rw [List.append_nil, Tree.ofLexemes_end hleads.read] at herror
      cases hfinish : finish source.utf8ByteSize state with
      | error first =>
          rw [hfinish] at herror
          cases herror
          exact .inl ⟨rfl, rfl⟩
      | ok terms =>
          rw [hfinish] at herror
          cases herror
  | .stray range :: rest =>
      rw [Tree.ofLexemes_stray hleads.read] at herror
      cases herror
      exact .inr (.inl ⟨range, rest, rfl, rfl⟩)
  | .token token range :: rest =>
      have hfollow : state.follow? ⟨range, token⟩ = none := hhalt ⟨range, token⟩ rest rfl
      have hrejection : Tree.ofLexemes source.utf8ByteSize
          (front.map Spanned.lexeme ++ .token token range :: rest) =
            .error (state.rejection ⟨range, token⟩) :=
        Tree.ofLexemes_rejection hleads.read hfollow rest
      rw [hrejection] at herror
      cases herror
      exact .inr (.inr ⟨⟨range, token⟩, rest, rfl, hfollow, rfl⟩)

/-- A token that does not follow is rejected with the error for it. -/
theorem firstError_rejection {state : State} {endPosition : Nat} {found : Spanned Token}
    (hleads : Leads front state) (hfollow : state.follow? found = none) (rest : List Lexeme) :
    FirstError endPosition front (found.lexeme :: rest) (state.rejection found) := by
  rcases State.rejection_cases hfollow with
    ⟨name, hname, herror⟩ | ⟨hlarge, herror⟩ | ⟨hdeep, herror⟩ | ⟨hname, hlarge, hdeep, herror⟩
  · rw [herror]
    exact .unknownConstructor found name rest (hleads.callsName_iff.2 hname)
  · rw [herror]
    exact .integerTooLarge found rest (hleads.tooLarge_iff.2 hlarge)
  · rw [herror]
    exact .nestingTooDeep found rest (hleads.tooDeep_iff.2 hdeep)
  · rw [herror]
    exact .unexpectedToken found rest _ (fun name => mt hleads.callsName_iff.1 (hname name))
      (mt hleads.tooLarge_iff.1 hlarge) (mt hleads.tooDeep_iff.1 hdeep)

/-- A text that ends where it cannot is rejected with the error for its end. -/
theorem firstError_finish {state : State} {endPosition : Nat} {error : ParseError}
    (hleads : Leads front state) (h : finish endPosition state = .error error) :
    FirstError endPosition front [] error := by
  rcases finish_eq_error h with ⟨hclose, innermost, outer, hunclosed, rfl⟩ | ⟨hclose, rfl⟩
  · exact .unclosedParen innermost outer (hleads.unclosed.trans hunclosed)
      (hleads.continues_iff.2 hclose)
  · exact .unexpectedEnd _ (mt hleads.continues_iff.1 hclose)

/-- The error of a text that is not well formed sits where the longest viable sequence of tokens at
its beginning ends, and is the one for what stands there. -/
theorem Tree.firstError_of_parse {error : ParseError} (h : Tree.parse source = .error error) :
    (∃ front tail, Longest (Lexeme.ofText source) front tail) ∧
      ∀ front tail, Longest (Lexeme.ofText source) front tail →
        FirstError source.utf8ByteSize front tail error := by
  refine ⟨exists_longest source, fun front tail hlongest => ?_⟩
  obtain ⟨state, hleads, hcases⟩ := hlongest.error_cases h
  rcases hcases with ⟨rfl, hfinish⟩ | ⟨range, rest, rfl, rfl⟩ | ⟨found, rest, rfl, hfollow, rfl⟩
  · exact firstError_finish hleads hfinish
  · exact .strayCharacter range rest
  · exact firstError_rejection hleads hfollow rest

/-- The tokens of `(Record(x=`. -/
def openField : List (Spanned Token) :=
  [⟨⟨0, 1⟩, .openParen⟩, ⟨⟨1, 7⟩, .keyword .record⟩, ⟨⟨7, 8⟩, .openParen⟩, ⟨⟨8, 9⟩, .name "x"⟩,
    ⟨⟨9, 10⟩, .equals⟩]

/-- Behind the equals sign of a field no parenthesis can close, although two are open. -/
theorem Tree.firstError_of_parse_openField :
    Tree.parse "(Record(x=)" =
        .error (.unexpectedToken ⟨10, 11⟩ .closeParen Expected.operand) ∧
      Longest (Lexeme.ofText "(Record(x=)") openField [.token .closeParen ⟨10, 11⟩] ∧
      FirstError 11 openField [.token .closeParen ⟨10, 11⟩]
        (.unexpectedToken ⟨10, 11⟩ .closeParen Expected.operand) := by
  have hitems : Lexeme.ofText "(Record(x=)" =
      openField.map Spanned.lexeme ++ [.token .closeParen ⟨10, 11⟩] := by
    decide +kernel
  have hparse : Tree.parse "(Record(x=)" =
      .error (.unexpectedToken ⟨10, 11⟩ .closeParen Expected.operand) := by
    rw [Tree.parse, hitems]
    rfl
  have hleads : ∃ state, Leads openField state ∧ state.follow? ⟨⟨10, 11⟩, .closeParen⟩ = none :=
    ⟨_, ⟨by decide, rfl⟩, rfl⟩
  obtain ⟨state, hleads, hfollow⟩ := hleads
  have hlongest := Longest.of_leads hleads hitems fun found rest htail => by
    obtain ⟨range, value⟩ := found
    cases htail
    exact hfollow
  exact ⟨hparse, hlongest, (Tree.firstError_of_parse hparse).2 _ _ hlongest⟩

end Longest

end ArrayShape
