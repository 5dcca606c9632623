import ArrayShape.Proofs.Control

/-!
# Tokens that can begin a text

Tokens are viable if some tokens behind them complete a text that is read. Since every control has
a completion and proper tokens can be written down, tokens are viable exactly when the automaton
moves over them (`viable_iff_control`), and an alternative continues them exactly when the control
they lead to admits it (`continues_iff`).
-/

namespace ArrayShape

namespace Token

/-- Some text that is read has exactly these tokens. -/
def Accepted (tokens : List Token) : Prop :=
  ∃ source tree, Tree.parse source = .ok tree ∧ ofText source = tokens

/-- Some tokens behind these complete an accepted sequence. -/
def Viable (tokens : List Token) : Prop :=
  ∃ more, Accepted (tokens ++ more)

/-- The alternative that a token is an instance of. -/
def alternative : Token → Expected
  | .name _ => .name
  | .number _ => .integer
  | .keyword reserved => .keyword reserved
  | .comma => .comma
  | .equals => .equals
  | .openParen => .openParen
  | .closeParen => .closeParen

/-- The alternative can come next behind tokens: some token of its kind, or the end of the text. -/
def Continues (tokens : List Token) : Expected → Prop
  | .endOfInput => Accepted tokens
  | kind => ∃ token : Token, token.alternative = kind ∧ Viable (tokens ++ [token])

/-- An operand can come next behind tokens. A name alone can also be a label, and an integer alone
can also be an argument. -/
def OperandMayFollow (tokens : List Token) : Prop :=
  Continues tokens .name ∧ Continues tokens .integer

end Token

/-! ## Texts that hold given tokens -/

/-- The items of a text without stray characters are its tokens. -/
theorem Token.ofText_of_items {source : String} {front : List (Spanned Token)}
    (h : Lexeme.ofText source = front.map Spanned.lexeme) :
    Token.ofText source = front.map Spanned.value := by
  rw [ofText, h, List.filterMap_map]
  exact congrFun List.filterMap_eq_map front

/-- Proper tokens are the items of their characters with a space behind each of them. -/
theorem Lexer.exists_lexemesFrom {tokens : List Token} (h : ∀ token ∈ tokens, token.Proper)
    (offset : Nat) :
    ∃ front : List (Spanned Token),
      lexemesFrom offset (tokens.flatMap fun token => token.text.toList ++ [' ']) =
        front.map Spanned.lexeme ∧ front.map Spanned.value = tokens := by
  induction tokens generalizing offset with
  | nil => exact ⟨[], by simp [lexemesFrom], rfl⟩
  | cons token rest ih =>
      obtain ⟨hproper, hrest⟩ := List.forall_mem_cons.1 h
      obtain ⟨front, hitems, rfl⟩ := ih hrest (offset + Text.byteLength token.text.toList + 1)
      refine ⟨⟨⟨offset, offset + Text.byteLength token.text.toList⟩, token⟩ :: front, ?_, rfl⟩
      have hspace : token.EndsBefore (' ' :: (front.map Spanned.value).flatMap
          fun token => token.text.toList ++ [' ']) :=
        Token.endsBefore_of_delimited fun _ => Text.delimited_cons.2 rfl
      rw [List.flatMap_cons, List.append_assoc, List.singleton_append,
        lexemesFrom_token hproper hspace, lexemesFrom_space, hitems]
      rfl

/-- Some text has exactly the given proper tokens as its items. -/
theorem Lexeme.exists_ofText {tokens : List Token} (h : ∀ token ∈ tokens, token.Proper) :
    ∃ source, ∃ front : List (Spanned Token),
      ofText source = front.map Spanned.lexeme ∧ front.map Spanned.value = tokens := by
  obtain ⟨front, hitems, hvalues⟩ := Lexer.exists_lexemesFrom h 0
  refine ⟨String.ofList (tokens.flatMap fun token => token.text.toList ++ [' ']), front, ?_,
    hvalues⟩
  rw [ofText, String.toList_ofList, hitems]

namespace Token

open ArrayShape.Parser

/-- Tokens are accepted exactly when a text can hold them and they lead to the end of a list of
operands. -/
theorem accepted_iff_control {tokens : List Token} :
    Accepted tokens ↔
      (∀ token ∈ tokens, token.Proper) ∧ Control.initial.read? tokens = some .final := by
  constructor
  · intro h
    obtain ⟨source, tree, hparse, rfl⟩ := h
    obtain ⟨front, state, hitems, hread, hcontrol⟩ := Tree.ofLexemes_ok_iff.1 ⟨tree, hparse⟩
    refine ⟨fun token => proper_of_mem_ofText, ?_⟩
    rw [ofText_of_items hitems, ← hcontrol]
    have hmoved := control_read? .initial front
    rw [hread] at hmoved
    exact hmoved.symm
  · intro h
    obtain ⟨hproper, hread⟩ := h
    obtain ⟨source, front, hitems, rfl⟩ := Lexeme.exists_ofText hproper
    have hmoved := control_read? .initial front
    rw [show State.initial.control = .initial from rfl, hread] at hmoved
    obtain ⟨state, hstate, hcontrol⟩ := Option.map_eq_some_iff.1 hmoved
    obtain ⟨tree, hparse⟩ :=
      Tree.ofLexemes_ok_iff.2 ⟨front, state, hitems, hstate, hcontrol⟩
    exact ⟨source, tree, hparse, ofText_of_items hitems⟩

/-- Tokens are viable exactly when a text can hold them and the automaton moves over them. -/
theorem viable_iff_control {tokens : List Token} :
    Viable tokens ↔
      (∀ token ∈ tokens, token.Proper) ∧
        ∃ control, Control.initial.read? tokens = some control := by
  constructor
  · intro h
    obtain ⟨more, haccepted⟩ := h
    obtain ⟨hproper, hread⟩ := accepted_iff_control.1 haccepted
    rw [Control.read?_append] at hread
    obtain ⟨control, hcontrol, -⟩ := Option.bind_eq_some_iff.1 hread
    exact ⟨(List.forall_mem_append.1 hproper).1, control, hcontrol⟩
  · intro h
    obtain ⟨hproper, control, hcontrol⟩ := h
    refine ⟨control.completion, accepted_iff_control.2 ⟨?_, ?_⟩⟩
    · exact List.forall_mem_append.2 ⟨hproper, control.completion_proper⟩
    · rw [Control.read?_append, hcontrol, Option.bind_some, control.read?_completion]

end Token

/-! ## What continues tokens -/

/-- A token of the kind that an alternative names. -/
def Expected.sample? : Expected → Option Token
  | .integer => some (.number "0")
  | .name => some (.name "a")
  | .keyword reserved => some (.keyword reserved)
  | .openParen => some .openParen
  | .closeParen => some .closeParen
  | .comma => some .comma
  | .equals => some .equals
  | .endOfInput => none

namespace Parser.Control

/-- The alternative can come next at a control. -/
def admits (control : Control) (kind : Expected) : Bool :=
  match kind.sample? with
  | some token => (control.next? token).isSome
  | none => control = final

/-- A sample follows where a token of its kind follows. A numeral that is too large is the only
token that does not follow where others of its kind do. -/
theorem admits_of_next? {control : Control} {token : Token} (h : (control.next? token).isSome) :
    control.admits token.alternative := by
  obtain ⟨frames, place⟩ := control
  cases token with
  | number digits =>
      cases place with
      | operand | enumValue | lower | upper => rfl
      | _ => exact h
  | name text => cases place <;> exact h
  | _ => exact h

end Parser.Control

namespace Token

open ArrayShape.Parser

section Front

variable {tokens : List Token} {control : Control}

/-- A token makes viable tokens longer exactly when a text can hold it and it follows. -/
theorem viable_append_iff (hproper : ∀ token ∈ tokens, token.Proper)
    (hread : Control.initial.read? tokens = some control) {token : Token} :
    Viable (tokens ++ [token]) ↔ token.Proper ∧ (control.next? token).isSome := by
  have htext : (∀ other ∈ tokens ++ [token], other.Proper) ↔ token.Proper := by
    rw [List.forall_mem_append, List.forall_mem_singleton, and_iff_right hproper]
  have hmoved : Control.initial.read? (tokens ++ [token]) = control.next? token := by
    rw [Control.read?_append, hread, Option.bind_some, Control.read?_cons]
    exact Option.bind_fun_some _
  rw [viable_iff_control, htext, hmoved, Option.isSome_iff_exists]

/-- An alternative continues viable tokens exactly when the control behind them admits it. -/
theorem continues_iff (hproper : ∀ token ∈ tokens, token.Proper)
    (hread : Control.initial.read? tokens = some control) {kind : Expected} :
    Continues tokens kind ↔ control.admits kind := by
  have hkind : (∃ token : Token, token.alternative = kind ∧ Viable (tokens ++ [token])) →
      control.admits kind := by
    intro h
    obtain ⟨token, rfl, hviable⟩ := h
    exact Control.admits_of_next? ((viable_append_iff hproper hread).1 hviable).2
  have hsample : ∀ token, kind.sample? = some token → token.alternative = kind →
      token.Proper → control.admits kind →
        ∃ token : Token, token.alternative = kind ∧ Viable (tokens ++ [token]) := by
    intro token htoken halternative htext hadmits
    rw [Control.admits, htoken] at hadmits
    exact ⟨token, halternative, (viable_append_iff hproper hread).2 ⟨htext, hadmits⟩⟩
  cases kind with
  | endOfInput =>
      show Accepted tokens ↔ decide (control = .final) = true
      rw [accepted_iff_control, and_iff_right hproper, hread, decide_eq_true_iff,
        Option.some.injEq]
  | integer => exact ⟨hkind, hsample _ rfl rfl (by decide)⟩
  | name => exact ⟨hkind, hsample _ rfl rfl (by decide)⟩
  | keyword reserved => exact ⟨hkind, hsample _ rfl rfl trivial⟩
  | openParen => exact ⟨hkind, hsample _ rfl rfl trivial⟩
  | closeParen => exact ⟨hkind, hsample _ rfl rfl trivial⟩
  | comma => exact ⟨hkind, hsample _ rfl rfl trivial⟩
  | equals => exact ⟨hkind, hsample _ rfl rfl trivial⟩

end Front

end Token

namespace Parser

/-- A text can hold the tokens, and they lead the automaton to the state. -/
structure Leads (front : List (Spanned Token)) (state : State) : Prop where
  proper : ∀ token ∈ front.map Spanned.value, token.Proper
  read : State.initial.read? front = some state

variable {front : List (Spanned Token)} {state : State}

/-- Tokens that lead to a state lead to its control. -/
theorem Leads.control (h : Leads front state) :
    Control.initial.read? (front.map Spanned.value) = some state.control := by
  have hmoved := control_read? .initial front
  rw [h.read] at hmoved
  exact hmoved.symm

/-- Tokens are viable exactly when they lead to a state. -/
theorem viable_iff_leads : Token.Viable (front.map Spanned.value) ↔ ∃ state, Leads front state := by
  rw [Token.viable_iff_control]
  constructor
  · intro h
    obtain ⟨hproper, control, hcontrol⟩ := h
    rw [← show State.initial.control = .initial from rfl, ← control_read?] at hcontrol
    obtain ⟨state, hread, -⟩ := Option.map_eq_some_iff.1 hcontrol
    exact ⟨state, hproper, hread⟩
  · intro h
    obtain ⟨state, hleads⟩ := h
    exact ⟨hleads.proper, state.control, hleads.control⟩

/-- A token that a text can hold makes viable tokens longer exactly when it follows. -/
theorem Leads.viable_append_iff (h : Leads front state) {found : Spanned Token}
    (hproper : found.value.Proper) :
    Token.Viable ((front ++ [found]).map Spanned.value) ↔
      ∃ following, state.follow? found = some following := by
  rw [List.map_append, List.map_singleton, Token.viable_append_iff h.proper h.control,
    and_iff_right hproper, ← control_follow?, Option.isSome_map, Option.isSome_iff_exists]

/-- An alternative continues viable tokens exactly when the state they lead to admits it. -/
theorem Leads.continues_iff (h : Leads front state) {kind : Expected} :
    Token.Continues (front.map Spanned.value) kind ↔ state.control.admits kind :=
  Token.continues_iff h.proper h.control

/-- An operand can follow exactly where the automaton awaits one. -/
theorem Leads.operandMayFollow_iff (h : Leads front state) :
    Token.OperandMayFollow (front.map Spanned.value) ↔ state.phase = .operand := by
  rw [Token.OperandMayFollow, h.continues_iff, h.continues_iff, ← State.place_eq_operand_iff]
  obtain ⟨frames, place⟩ := state.control
  cases place with
  | operand => exact iff_of_true ⟨rfl, rfl⟩ rfl
  | label => exact iff_of_false (fun h => Bool.false_ne_true h.2) nofun
  | _ => exact iff_of_false (fun h => Bool.false_ne_true h.1) nofun

end Parser

end ArrayShape
