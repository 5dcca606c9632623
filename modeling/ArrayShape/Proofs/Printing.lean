import ArrayShape.Proofs.Lexing
import ArrayShape.Shape.Parts

/-!
# The tokens of a printed shape

A printed shape is a spelling of tokens, whatever the texts of its names are (`toList_text`). The
tokens can be read back from the spelling if every part of the shape is `Lexical`: its names are
names that a text can hold. They are in the notation if every part is `Spellable`: no list in it
that must not be empty is empty. The type variables that are `Writable` are also not taken for
another operand when they are read.
-/

namespace ArrayShape

namespace Operand

/-- What an operand must satisfy itself, apart from the operands inside it, to be read from its
printed form. -/
def Writable : Operand String → Prop
  | .typeVar name =>
    Text.isIdentifier name = true ∧ Keyword.ofText? name = none ∧ DType.ofName? name = none ∧
      ofTypeName? name = none
  | .record fields => fields ≠ [] ∧ ∀ field ∈ fields, Text.isIdentifier field.1 = true
  | .enum values => values ≠ []
  | .integer _ | .var _ _ | .dtype _ => True

/-- What an operand must satisfy itself, apart from the operands inside it, for its printed form to
be in the notation, even if a type variable in it is taken for another operand. -/
def Spellable : Operand String → Prop
  | .typeVar name => Text.isIdentifier name = true ∧ Keyword.ofText? name = none
  | .record fields => fields ≠ [] ∧ ∀ field ∈ fields, Text.isIdentifier field.1 = true
  | .enum values => values ≠ []
  | .integer _ | .var _ _ | .dtype _ => True

/-- What an operand must satisfy itself, apart from the operands inside it, for its printed form to
be read as the tokens that it spells: its names are names that a text can hold. -/
def Lexical : Operand String → Prop
  | .typeVar name => Text.isIdentifier name = true ∧ Keyword.ofText? name = none
  | .record fields => ∀ field ∈ fields, Text.isIdentifier field.1 = true
  | .integer _ | .enum _ | .var _ _ | .dtype _ => True

/-- A printed form in the notation is read as the tokens that it spells. -/
theorem Spellable.lexical {operand : Operand String} (h : operand.Spellable) :
    operand.Lexical := by
  cases operand with
  | typeVar name => exact h
  | record fields => exact h.2
  | integer | enum | var | dtype => trivial

/-- An operand that is read from its printed form has a printed form in the notation. -/
theorem Writable.spellable {operand : Operand String} (h : operand.Writable) :
    operand.Spellable := by
  cases operand with
  | typeVar name => exact ⟨h.1, h.2.1⟩
  | _ => exact h

/-! ## Tokens -/

/-- Lists of tokens with a comma between each two. -/
def joined (arguments : List (List Token)) : List Token :=
  [Token.comma].intercalate arguments

@[simp] theorem joined_nil : joined [] = [] :=
  List.intercalate_nil

@[simp] theorem joined_singleton (argument : List Token) : joined [argument] = argument :=
  List.intercalate_singleton

@[simp] theorem joined_cons_cons (first second : List Token) (rest : List (List Token)) :
    joined (first :: second :: rest) = first ++ .comma :: joined (second :: rest) := by
  simp [joined, List.intercalate_cons_cons]

/-- A comma stands behind the first of several arguments. -/
theorem joined_cons {first : List Token} {rest : List (List Token)} (h : rest ≠ []) :
    joined (first :: rest) = first ++ .comma :: joined rest := by
  cases rest with
  | nil => exact absurd rfl h
  | cons second others => exact joined_cons_cons first second others

/-- Commas stand between two runs of arguments as between arguments. -/
theorem joined_append {first second : List (List Token)} (hfirst : first ≠ [])
    (hsecond : second ≠ []) :
    joined (first ++ second) = joined first ++ .comma :: joined second := by
  induction first with
  | nil => exact absurd rfl hfirst
  | cons argument others ih =>
      cases others with
      | nil => simp [joined_cons hsecond]
      | cons next last => simpa using ih nofun

/-- The tokens of a keyword with its arguments in parentheses. -/
def callTokens (reserved : Keyword) (arguments : List (List Token)) : List Token :=
  .keyword reserved :: .openParen :: (joined arguments ++ [.closeParen])

/-- The token of the numeral of a word. -/
def wordToken (value : UInt64) : Token :=
  .number (Decimal.write value)

mutual
/-- The tokens of the printed form of an operand. -/
def tokens : Operand String → List Token
  | .integer value => [wordToken value]
  | .typeVar name => [.name name]
  | .record fields => callTokens .record (fieldsTokens fields)
  | .enum values => callTokens .enum (values.map ([wordToken ·]))
  | .var lower upper => callTokens .var [[wordToken lower], [wordToken upper]]
  | .dtype scalar => [.name scalar.name]

/-- The tokens of the printed forms of fields. -/
def fieldsTokens : Fields String → List (List Token)
  | [] => []
  | (label, type) :: rest => (Token.ofWord label :: .equals :: type.tokens) :: fieldsTokens rest
end

/-! ## Spelling -/

/-- A keyword that stands for a word is spelled as the word. -/
theorem spelling_ofWord (label : String) : (Token.ofWord label).spelling = label.toList := by
  unfold Token.ofWord
  split
  · next h => exact congrArg String.toList (Keyword.text_of_ofText? h)
  · rfl

/-- Texts that are spellings are spelled with commas when they are separated. -/
theorem toList_separated {texts : List String} {arguments : List (List Token)}
    (h : texts.map String.toList = arguments.map Token.spell) :
    (separated texts).toList = Token.spell (joined arguments) := by
  rw [separated, String.toList_intercalate, h]
  clear h
  induction arguments with
  | nil => rfl
  | cons first rest ih =>
      cases rest with
      | nil => simp
      | cons second others =>
          simp only [List.map_cons, List.intercalate_cons_cons, joined_cons_cons] at ih ⊢
          rw [ih]
          simp [Token.spelling]

/-- A call is spelled with its keyword and its arguments. -/
theorem toList_call (reserved : Keyword) {texts : List String} {arguments : List (List Token)}
    (h : texts.map String.toList = arguments.map Token.spell) :
    (call reserved texts).toList = Token.spell (callTokens reserved arguments) := by
  simp only [call, String.toList_append, toList_separated h]
  simp [callTokens, Token.spelling, Token.text]

/-- The numeral of a word is spelled as it is printed. -/
@[simp] theorem spelling_wordToken (value : UInt64) :
    (wordToken value).spelling = (Decimal.write value).toList := rfl

mutual
/-- The printed form of an operand spells its tokens. -/
theorem toList_text (operand : Operand String) :
    operand.text.toList = Token.spell operand.tokens := by
  cases operand with
  | integer value => simp [text, tokens]
  | typeVar name => simp [text, tokens, Token.spelling, Token.text]
  | record fields =>
      show (call .record (fieldTexts fields)).toList =
        Token.spell (callTokens .record (fieldsTokens fields))
      exact toList_call .record (toList_fieldTexts fields)
  | enum values =>
      show (call .enum (values.map Decimal.write)).toList =
        Token.spell (callTokens .enum (values.map ([wordToken ·])))
      refine toList_call .enum ?_
      simp
  | var lower upper =>
      show (call .var [Decimal.write lower, Decimal.write upper]).toList =
        Token.spell (callTokens .var [[wordToken lower], [wordToken upper]])
      refine toList_call .var ?_
      simp
  | dtype scalar => simp [text, tokens, Token.spelling, Token.text]

/-- The printed forms of fields spell their tokens. -/
theorem toList_fieldTexts (fields : Fields String) :
    (fieldTexts fields).map String.toList = (fieldsTokens fields).map Token.spell := by
  match fields with
  | [] => rfl
  | (label, type) :: rest =>
      have hfield : (label ++ "=" ++ type.text).toList =
          Token.spell (Token.ofWord label :: .equals :: type.tokens) := by
        simp only [String.toList_append, toList_text type, Token.spell_cons, spelling_ofWord]
        simp [Token.spelling, Token.text]
      simp only [fieldTexts, fieldsTokens, List.map_cons, hfield, toList_fieldTexts rest]
end

/-! ## Legibility -/

/-- The numeral of a word is a run of digits. -/
theorem proper_wordToken (value : UInt64) : (wordToken value).Proper := by
  simp only [wordToken, Token.Proper, Decimal.write, Nat.toList_repr]
  exact ⟨Nat.toDigits_ne_nil, fun c hc => Nat.isDigit_of_mem_toDigits (by decide) (by decide) hc⟩

/-- The name of an element type is a name that a text can hold. -/
theorem proper_name (scalar : DType) : (Token.name scalar.name).Proper := by
  cases scalar <;> exact ⟨by decide, by decide⟩

/-- An identifier is a word that a text can hold. -/
theorem proper_ofWord {label : String} (h : Text.isIdentifier label = true) :
    (Token.ofWord label).Proper := by
  unfold Token.ofWord
  split
  · trivial
  · next hnone => exact ⟨h, hnone⟩

open Token (Legible)

/-- A single token that a text can hold is legible. -/
theorem legible_singleton {token : Token} (h : token.Proper) : Legible [token] :=
  ⟨h, nofun, trivial⟩

/-- Tokens that do not begin with a word may stand behind any tokens. -/
theorem legible_append {first second : List Token} (hfirst : Legible first)
    (hsecond : Legible second) (hnext : ∀ next ∈ second.head?, next.isWord = false) :
    Legible (first ++ second) := by
  induction first with
  | nil => exact hsecond
  | cons token rest ih =>
      obtain ⟨hproper, hmeet, hrest⟩ := hfirst
      refine ⟨hproper, ?_, ih hrest⟩
      cases rest with
      | nil => exact fun _ => hnext
      | cons next others => exact hmeet

/-- Legible arguments are legible with commas between them. -/
theorem legible_joined {arguments : List (List Token)}
    (h : ∀ argument ∈ arguments, Legible argument) : Legible (joined arguments) := by
  induction arguments with
  | nil => trivial
  | cons first rest ih =>
      obtain ⟨hfirst, hrest⟩ := List.forall_mem_cons.1 h
      cases rest with
      | nil => simpa using hfirst
      | cons second others =>
          rw [joined_cons_cons]
          exact legible_append hfirst ⟨trivial, nofun, ih hrest⟩ (by simp [Token.isWord])

/-- A call with legible arguments is legible. -/
theorem legible_callTokens (reserved : Keyword) {arguments : List (List Token)}
    (h : ∀ argument ∈ arguments, Legible argument) : Legible (callTokens reserved arguments) := by
  refine ⟨trivial, fun _ => by simp [Token.isWord], trivial, nofun, ?_⟩
  exact legible_append (legible_joined h) (legible_singleton trivial) (by simp [Token.isWord])

mutual
/-- The tokens of an operand whose parts are lexical are legible. -/
theorem legible_tokens (operand : Operand String) (h : ∀ part ∈ operand.parts, part.Lexical) :
    Legible operand.tokens := by
  cases operand with
  | integer value => exact legible_singleton (proper_wordToken value)
  | typeVar name =>
      exact legible_singleton (h (.typeVar name) (mem_parts_self _))
  | record fields =>
      rw [parts, List.forall_mem_cons] at h
      obtain ⟨hlabels, hfields⟩ := h
      show Legible (callTokens .record (fieldsTokens fields))
      exact legible_callTokens .record (legible_fieldsTokens fields hlabels hfields)
  | enum values =>
      refine legible_callTokens .enum fun argument hargument => ?_
      obtain ⟨value, -, rfl⟩ := List.mem_map.1 hargument
      exact legible_singleton (proper_wordToken value)
  | var lower upper =>
      refine legible_callTokens .var ?_
      simp [legible_singleton, proper_wordToken]
  | dtype scalar => exact legible_singleton (proper_name scalar)

/-- The tokens of fields whose types are lexical are legible, if the labels are identifiers. -/
theorem legible_fieldsTokens (fields : Fields String)
    (hlabels : ∀ field ∈ fields, Text.isIdentifier field.1 = true)
    (htypes : ∀ part ∈ fieldsParts fields, part.Lexical) :
    ∀ argument ∈ fieldsTokens fields, Legible argument := by
  match fields with
  | [] => exact nofun
  | (label, type) :: rest =>
      rw [List.forall_mem_cons] at hlabels
      rw [fieldsParts, List.forall_mem_append] at htypes
      rw [fieldsTokens, List.forall_mem_cons]
      refine ⟨⟨proper_ofWord hlabels.1, fun _ => by simp [Token.isWord], trivial, nofun, ?_⟩, ?_⟩
      · exact legible_tokens type htypes.1
      · exact legible_fieldsTokens rest hlabels.2 htypes.2
end

/-- The tokens of a printed operand whose parts are writable are its tokens. -/
theorem ofText_text {operand : Operand String} (h : ∀ part ∈ operand.parts, part.Writable) :
    Token.ofText operand.text = operand.tokens := by
  have hitems : (Lexeme.ofText operand.text).map Lexeme.token? = operand.tokens.map some := by
    rw [Lexeme.ofText, toList_text]
    exact Token.lexemesFrom_spell
      (legible_tokens operand fun part hpart => (h part hpart).spellable.lexical) 0
  have htokens := congrArg (List.filterMap id) hitems
  simpa [Token.ofText, List.filterMap_map] using htokens

end Operand

/-! ## Shapes -/

namespace Shape

/-- The tokens of the printed form of a shape. -/
def tokens (shape : Shape String) : List Token :=
  Operand.joined (shape.operands.map Operand.tokens)

/-- A printed shape spells its tokens. -/
theorem toList_text (shape : Shape String) : shape.text.toList = Token.spell shape.tokens := by
  refine Operand.toList_separated ?_
  simp [Operand.toList_text]

/-- The tokens of a shape whose parts are lexical are legible. -/
theorem legible_tokens {shape : Shape String} (h : ∀ part ∈ shape.parts, part.Lexical) :
    Token.Legible shape.tokens := by
  refine Operand.legible_joined fun argument hargument => ?_
  obtain ⟨operand, hoperand, rfl⟩ := List.mem_map.1 hargument
  exact Operand.legible_tokens operand fun part hpart =>
    h part (List.mem_flatMap.2 ⟨operand, hoperand, hpart⟩)

/-- The items of a printed shape are its tokens, if its parts are lexical. -/
theorem token?_ofText_of_lexical {shape : Shape String} (h : ∀ part ∈ shape.parts, part.Lexical) :
    (Lexeme.ofText shape.text).map Lexeme.token? = shape.tokens.map some := by
  rw [Lexeme.ofText, toList_text]
  exact Token.lexemesFrom_spell (legible_tokens h) 0

/-- The items of a printed shape are its tokens, if its parts are spellable. -/
theorem token?_ofText_of_spellable {shape : Shape String}
    (h : ∀ part ∈ shape.parts, part.Spellable) :
    (Lexeme.ofText shape.text).map Lexeme.token? = shape.tokens.map some :=
  token?_ofText_of_lexical fun part hpart => (h part hpart).lexical

/-- The items of a printed shape are its tokens, if its parts are writable. -/
theorem token?_ofText_text {shape : Shape String} (h : ∀ part ∈ shape.parts, part.Writable) :
    (Lexeme.ofText shape.text).map Lexeme.token? = shape.tokens.map some :=
  token?_ofText_of_spellable fun part hpart => (h part hpart).spellable

end Shape

end ArrayShape
