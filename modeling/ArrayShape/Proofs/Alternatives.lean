import ArrayShape.Proofs.FirstError

/-!
# The alternatives that an error lists

An error about an unexpected token, or an unexpected end, lists what could have stood there. The
list is exact (`listed_iff_of_parse`) up to one place: behind the second bound of a range, where
only a closing parenthesis can follow, a comma is listed as well unless a comma was found.
-/

namespace ArrayShape

namespace ParseError

/-- The alternatives that an error lists, if it is about an unexpected token or end. -/
def alternatives? : ParseError → Option (List Expected)
  | .unexpectedToken _ _ expected | .unexpectedEnd _ expected => some expected
  | .strayCharacter _ | .unclosedParen _ _ | .unknownConstructor _ _ | .integerTooLarge _
  | .nestingTooDeep _ => none

/-- The token that an error says is unexpected, if it is not about the end of the text. -/
def offending? : ParseError → Option (Spanned Token)
  | .unexpectedToken range found _ => some ⟨range, found⟩
  | .strayCharacter _ | .unexpectedEnd _ _ | .unclosedParen _ _ | .unknownConstructor _ _
  | .integerTooLarge _ | .nestingTooDeep _ => none

end ParseError

/-- An alternative is listed. Where a label is the only alternative, it is listed as a name, and
stands for the keywords too. -/
def Expected.Listed (expected : List Expected) (kind : Expected) : Prop :=
  kind ∈ expected ∨ expected = [.name] ∧ ∃ reserved, kind = .keyword reserved

/-- The last of the tokens is the second bound of a range. -/
def Token.EndInBounds (tokens : List Token) : Prop :=
  ∃ first lower upper,
    tokens = first ++ [.keyword .var, .openParen, .number lower, .comma, .number upper]

namespace Parser

/-! ## Behind the bounds of a range -/

/-- What a place in the arguments of a range says about the tokens before it, which are given with
the last one first. -/
def Place.Bounds (tokens : List Token) : Place → Prop
  | .opening .var => ∃ before, tokens = .keyword .var :: before
  | .lower => ∃ before, tokens = .openParen :: .keyword .var :: before
  | .separator => ∃ lower before, tokens = .number lower :: .openParen :: .keyword .var :: before
  | .upper =>
    ∃ lower before, tokens = .comma :: .number lower :: .openParen :: .keyword .var :: before
  | .closing =>
    ∃ lower upper before,
      tokens = .number upper :: .comma :: .number lower :: .openParen :: .keyword .var :: before
  | _ => True

/-- A token that follows keeps what the places in the arguments of a range say. -/
theorem Follows.bounds {state following : State} {found : Spanned Token} {tokens : List Token}
    (h : Follows state found following) (hbounds : state.phase.place.Bounds tokens) :
    following.phase.place.Bounds (found.value :: tokens) := by
  cases h with
  | keyword base frames range reserved =>
      cases reserved with
      | var => exact ⟨tokens, rfl⟩
      | _ => trivial
  | opening base frames range reserved keyword =>
      cases reserved with
      | var =>
          obtain ⟨before, rfl⟩ := hbounds
          exact ⟨before, rfl⟩
      | _ => trivial
  | lower base frames range digits =>
      obtain ⟨before, rfl⟩ := hbounds
      exact ⟨digits, before, rfl⟩
  | separator =>
      obtain ⟨lower, before, rfl⟩ := hbounds
      exact ⟨lower, before, rfl⟩
  | upper base frames range digits =>
      obtain ⟨lower, before, rfl⟩ := hbounds
      exact ⟨lower, digits, before, rfl⟩
  | comma base frames range term =>
      cases frames with
      | nil => trivial
      | cons frame outer => cases frame <;> trivial
  | _ => trivial

/-- A numeral leads to one place alone. -/
theorem Control.eq_of_numeral? {frames : List Bool} {digits : String} {place : Place}
    {following : Control} (h : numeral? frames digits place = some following) :
    following = ⟨frames, place⟩ := by
  unfold numeral? at h
  split at h
  · exact (Option.some.inj h).symm
  · cases h

/-- The bounds of a range lead to the place behind them. A keyword that is a label has no
parenthesis behind it. -/
theorem Control.place_of_bounds {control following : Control} {lower upper : String}
    (h : control.read? [.keyword .var, .openParen, .number lower, .comma, .number upper] =
      some following) : following.place = .closing := by
  obtain ⟨frames, place⟩ := control
  cases place with
  | operand =>
      have hvar : Control.next? ⟨frames, .operand⟩ (.keyword .var) =
          some ⟨frames, .opening .var⟩ := by
        simp [next?]
      rw [read?_cons, hvar, Option.bind_some] at h
      change (numeral? frames lower .separator).bind _ = _ at h
      obtain ⟨behindLower, hlower, h⟩ := Option.bind_eq_some_iff.1 h
      cases eq_of_numeral? hlower
      change (numeral? frames upper .closing).bind _ = _ at h
      obtain ⟨behindUpper, hupper, h⟩ := Option.bind_eq_some_iff.1 h
      cases eq_of_numeral? hupper
      cases h
      rfl
  | _ => cases h

/-- The place behind the bounds of a range is reached by the bounds of a range alone. -/
theorem Leads.endInBounds_iff {front : List (Spanned Token)} {state : State}
    (h : Leads front state) :
    Token.EndInBounds (front.map Spanned.value) ↔ state.control.place = .closing := by
  constructor
  · intro hbounds
    obtain ⟨first, lower, upper, hfront⟩ := hbounds
    have hread := h.control
    rw [hfront, Control.read?_append] at hread
    obtain ⟨control, -, hcontrol⟩ := Option.bind_eq_some_iff.1 hread
    exact Control.place_of_bounds hcontrol
  · intro hplace
    have hfirst : State.initial.phase.place.Bounds ([].map Spanned.value) := trivial
    have hbounds := State.read?_invariant
      (fun state tokens => state.phase.place.Bounds (tokens.map Spanned.value))
      (fun _ _ _ _ => Follows.bounds) hfirst h.read
    rw [show state.phase.place = .closing from hplace, List.append_nil, List.map_reverse] at hbounds
    obtain ⟨lower, upper, before, hfront⟩ := hbounds
    refine ⟨before.reverse, lower, upper, ?_⟩
    rw [← List.reverse_reverse (front.map Spanned.value), hfront]
    simp

/-! ## The alternatives of a place -/

namespace Control

variable {control : Control} {found : Option Token} {kind : Expected}

/-- A keyword is listed as itself only where an operand is awaited. -/
theorem place_of_keyword_mem {reserved : Keyword}
    (h : .keyword reserved ∈ control.alternatives found) : control.place = .operand := by
  obtain ⟨frames, place⟩ := control
  cases place with
  | operand => rfl
  | closing => by_cases hfound : found = some .comma <;> simp [alternatives, hfound] at h
  | complete => by_cases hframes : frames = [] <;> simp [alternatives, hframes] at h
  | _ => simp [alternatives] at h

/-- The bounds of a range can be closed. -/
theorem admits_closeParen (h : control.place = .closing) : control.admits .closeParen := by
  obtain ⟨frames, place⟩ := control
  cases h
  rfl

/-- The alternatives of a place are those that it admits, and a comma too behind the bounds of a
range. A record that lies too deep is left aside. -/
theorem listed_alternatives_iff
    (hrecord : ¬ (kind = .keyword .record ∧ kind ∈ control.alternatives found ∧
      maxRecordDepth ≤ control.frames.count true)) :
    Expected.Listed (control.alternatives found) kind ↔
      control.admits kind ∨ kind = .comma ∧ control.place = .closing ∧ found ≠ some .comma := by
  have hzero : Decimal.value "0" < UInt64.size := by decide
  obtain ⟨frames, place⟩ := control
  cases place with
  | operand =>
      cases kind with
      | keyword reserved =>
          have hmem : .keyword reserved ∈ Expected.operand := by
            cases reserved <;> decide
          have hroom : ¬ (reserved = .record ∧ maxRecordDepth ≤ frames.count true) :=
            fun hfull => hrecord ⟨by rw [hfull.1], hmem, hfull.2⟩
          refine iff_of_true (.inl hmem) (.inl ?_)
          simp [admits, Expected.sample?, next?, hroom]
      | _ =>
          simp [Expected.Listed, alternatives, Expected.operand, admits, Expected.sample?, next?,
            numeral?, hzero, final]
  | closing =>
      by_cases hfound : found = some .comma <;> cases kind <;>
        simp [Expected.Listed, alternatives, admits, Expected.sample?, next?, final, hfound]
  | complete =>
      cases frames <;> cases kind <;>
        simp [Expected.Listed, alternatives, admits, Expected.sample?, next?, close?, final]
  | _ =>
      cases kind <;>
        simp [Expected.Listed, alternatives, admits, Expected.sample?, next?, numeral?, hzero,
          final]

end Control

/-- The alternatives of the place that tokens lead to are those that continue them, and a comma too
behind the bounds of a range. -/
theorem Leads.listed_iff {front : List (Spanned Token)} {state : State} (h : Leads front state)
    {found : Option Token} {kind : Expected}
    (hrecord : ¬ (kind = .keyword .record ∧ kind ∈ state.control.alternatives found ∧
      maxRecordDepth ≤ Token.openRecords front)) :
    Expected.Listed (state.control.alternatives found) kind ↔
      Token.Continues (front.map Spanned.value) kind ∨
        kind = .comma ∧ Token.EndInBounds (front.map Spanned.value) ∧ found ≠ some .comma := by
  rw [h.continues_iff, h.endInBounds_iff]
  refine Control.listed_alternatives_iff fun hfull => hrecord ?_
  obtain ⟨rfl, hmem, hdeep⟩ := hfull
  refine ⟨rfl, hmem, ?_⟩
  have hplace : state.control.place = .operand := Control.place_of_keyword_mem hmem
  have hphase : state.phase = .operand := State.place_eq_operand_iff.1 hplace
  rw [h.openRecords hphase]
  rw [show state.control.frames = state.frames.map Frame.isRecord from rfl, count_isRecord] at hdeep
  exact hdeep

end Parser

section Parse

open ArrayShape.Parser

variable {source : String} {error : ParseError} {expected : List Expected}

/-- The alternatives that an error lists are those that continue the tokens before the unexpected
token or end, with one exception: behind the bounds of a range, a comma is listed too, unless a
comma was found. A label is listed as a name and stands for the keywords too, and the entry for a
record is left aside inside `maxRecordDepth` open records. -/
theorem Tree.listed_iff_of_parse (h : Tree.parse source = .error error)
    (hexpected : error.alternatives? = some expected) :
    ∃ front tail, Longest (Lexeme.ofText source) front tail ∧
      tail.head? = error.offending?.map Spanned.lexeme ∧
      ∀ kind, ¬ (kind = .keyword .record ∧ kind ∈ expected ∧
          maxRecordDepth ≤ Token.openRecords front) →
        (Expected.Listed expected kind ↔
          Token.Continues (front.map Spanned.value) kind ∨
            kind = .comma ∧ Token.EndInBounds (front.map Spanned.value) ∧
              ∃ found ∈ error.offending?, found.value ≠ .comma) := by
  obtain ⟨front, tail, hlongest⟩ := exists_longest source
  refine ⟨front, tail, hlongest, ?_⟩
  obtain ⟨state, hleads, hcases⟩ := hlongest.error_cases h
  rcases hcases with ⟨rfl, hfinish⟩ | ⟨range, rest, rfl, rfl⟩ | ⟨found, rest, rfl, hfollow, rfl⟩
  · rcases finish_eq_error hfinish with ⟨-, innermost, outer, -, rfl⟩ | ⟨hopen, rfl⟩
    · cases hexpected
    · cases hexpected
      refine ⟨rfl, fun kind hrecord => ?_⟩
      rw [hleads.listed_iff hrecord, hleads.endInBounds_iff]
      -- The text does not end behind the bounds of a range, where a parenthesis can close.
      have hplace : state.control.place ≠ .closing :=
        fun hclosing => hopen (Control.admits_closeParen hclosing)
      simp [hplace, ParseError.offending?]
  · cases hexpected
  · rcases State.rejection_cases hfollow with
      ⟨name, -, herror⟩ | ⟨-, herror⟩ | ⟨-, herror⟩ | ⟨-, -, -, herror⟩
    · rw [herror] at hexpected
      cases hexpected
    · rw [herror] at hexpected
      cases hexpected
    · rw [herror] at hexpected
      cases hexpected
    · rw [herror] at hexpected ⊢
      cases hexpected
      refine ⟨rfl, fun kind hrecord => ?_⟩
      rw [hleads.listed_iff hrecord]
      simp [ParseError.offending?]

/-- A comma is listed behind the bounds of a range when a numeral is found there, and only a
parenthesis can follow. -/
theorem Tree.listed_iff_of_parse_bounds :
    Tree.parse "Var(1, 2 3)" =
        .error (.unexpectedToken ⟨9, 10⟩ (.number "3") [.comma, .closeParen]) ∧
      Token.Continues [.keyword .var, .openParen, .number "1", .comma, .number "2"] .closeParen ∧
      ¬ Token.Continues [.keyword .var, .openParen, .number "1", .comma, .number "2"] .comma ∧
      ∃ front tail, Longest (Lexeme.ofText "Var(1, 2 3)") front tail ∧
        tail.head? = some (.token (.number "3") ⟨9, 10⟩) ∧
        ∀ kind, ¬ (kind = .keyword .record ∧ kind ∈ [.comma, .closeParen] ∧
            maxRecordDepth ≤ Token.openRecords front) →
          (Expected.Listed [.comma, .closeParen] kind ↔
            Token.Continues (front.map Spanned.value) kind ∨
              kind = .comma ∧ Token.EndInBounds (front.map Spanned.value) ∧
                ∃ found ∈ some (⟨⟨9, 10⟩, .number "3"⟩ : Spanned Token), found.value ≠ .comma) := by
  have hitems : Lexeme.ofText "Var(1, 2 3)" =
      [.token (.keyword .var) ⟨0, 3⟩, .token .openParen ⟨3, 4⟩, .token (.number "1") ⟨4, 5⟩,
        .token .comma ⟨5, 6⟩, .token (.number "2") ⟨7, 8⟩, .token (.number "3") ⟨9, 10⟩,
        .token .closeParen ⟨10, 11⟩] := by
    decide +kernel
  have hparse : Tree.parse "Var(1, 2 3)" =
      .error (.unexpectedToken ⟨9, 10⟩ (.number "3") [.comma, .closeParen]) := by
    rw [Tree.parse, hitems]
    rfl
  have hproper : ∀ token ∈ [.keyword .var, .openParen, .number "1", .comma, .number "2"],
      Token.Proper token := by
    decide
  have hread : Control.initial.read?
      [.keyword .var, .openParen, .number "1", .comma, .number "2"] = some ⟨[], .closing⟩ := rfl
  refine ⟨hparse, (Token.continues_iff hproper hread).2 rfl, ?_,
    Tree.listed_iff_of_parse hparse rfl⟩
  rw [Token.continues_iff hproper hread]
  decide

end Parse

end ArrayShape
