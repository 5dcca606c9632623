import ArrayShape.Tree.Parser

/-!
# Derivations in the grammar of the notation

A derivation tree says how the grammar of `ArrayShape.Tree.Parser` derives a list of items. There
is one type for each list-valued or recursive rule, one constructor for each alternative, and
every token of a derivation keeps its range. `Phrase` derives an operand and `PhraseList` a whole
shape. `lexemes` is the list of items that is derived, `term` the term that the derivation stands
for, and `depth` the number of records around each other in it. A list of items has at most one
derivation (`PhraseList.lexemes_injective`).
-/

namespace ArrayShape

/-- A numeral fits in a 64-bit word. Every other item fits. -/
def Lexeme.Fits : Lexeme → Prop
  | .token (.number digits) _ => Decimal.value digits < UInt64.size
  | _ => True

@[simp] theorem Lexeme.fits_token {token : Token} {range : ByteRange} :
    (Lexeme.token token range).Fits ↔
      ∀ digits, token = .number digits → Decimal.value digits < UInt64.size := by
  cases token <;> simp [Fits]

namespace Grammar

open ArrayShape.Parser (Call)

/-- A label: a name, or a keyword that stands where a name may. -/
inductive Label where
  | name (text : String)
  | keyword (reserved : Keyword)
deriving DecidableEq

/-- The token that is written for a label. -/
def Label.token : Label → Token
  | .name text => .name text
  | .keyword reserved => .keyword reserved

@[simp] theorem Label.token_ne_number (label : Label) (digits : String) :
    label.token ≠ .number digits := by
  cases label <;> simp [token]

/-- The text of a label. -/
def Label.text : Label → String
  | .name text => text
  | .keyword reserved => reserved.text

/-- `integer ("," integer)*` -/
inductive NumeralList where
  | last (digits : Spanned String)
  | more (digits : Spanned String) (comma : ByteRange) (rest : NumeralList)

mutual
/-- `operand ::= integer | name | record | enum | var | "(" shape ")"` -/
inductive Phrase where
  | number (digits : Spanned String)
  | name (text : Spanned String)
  | record (call : Call) (fields : FieldList) (closing : ByteRange)
  | enum (call : Call) (values : NumeralList) (closing : ByteRange)
  | var (call : Call) (lower : Spanned String) (comma : ByteRange) (upper : Spanned String)
      (closing : ByteRange)
  | group (opening : ByteRange) (members : PhraseList) (closing : ByteRange)

/-- `shape ::= operand ("," operand)*` -/
inductive PhraseList where
  | last (operand : Phrase)
  | more (operand : Phrase) (comma : ByteRange) (rest : PhraseList)

/-- `field ("," field)*`, where `field ::= label "=" operand` -/
inductive FieldList where
  | last (label : Spanned Label) (equals : ByteRange) (type : Phrase)
  | more (label : Spanned Label) (equals : ByteRange) (type : Phrase) (comma : ByteRange)
      (rest : FieldList)
end

/-! ## The items of a derivation -/

/-- The item of a numeral. -/
def numeral (digits : Spanned String) : Lexeme :=
  .token (.number digits.value) digits.range

/-- The items of a keyword with its arguments in parentheses. -/
def wrap (reserved : Keyword) (call : Call) (arguments : List Lexeme) (closing : ByteRange) :
    List Lexeme :=
  .token (.keyword reserved) call.keyword :: .token .openParen call.opening ::
    (arguments ++ [.token .closeParen closing])

/-- The items of a label and its equals sign. -/
def labelled (label : Spanned Label) (equals : ByteRange) (type : List Lexeme) : List Lexeme :=
  .token label.value.token label.range :: .token .equals equals :: type

/-- The items of numerals, with their commas. -/
def NumeralList.lexemes : NumeralList → List Lexeme
  | .last digits => [numeral digits]
  | .more digits comma rest => numeral digits :: .token .comma comma :: rest.lexemes

mutual
/-- The items that an operand derives. -/
def Phrase.lexemes : Phrase → List Lexeme
  | .number digits => [numeral digits]
  | .name text => [.token (.name text.value) text.range]
  | .record call fields closing => wrap .record call fields.lexemes closing
  | .enum call values closing => wrap .enum call values.lexemes closing
  | .var call lower comma upper closing =>
    wrap .var call [numeral lower, .token .comma comma, numeral upper] closing
  | .group opening members closing =>
    .token .openParen opening :: (members.lexemes ++ [.token .closeParen closing])

/-- The items that a list of operands derives, with their commas. -/
def PhraseList.lexemes : PhraseList → List Lexeme
  | .last operand => operand.lexemes
  | .more operand comma rest => operand.lexemes ++ .token .comma comma :: rest.lexemes

/-- The items that a list of fields derives, with their commas. -/
def FieldList.lexemes : FieldList → List Lexeme
  | .last label equals type => labelled label equals type.lexemes
  | .more label equals type comma rest =>
    labelled label equals type.lexemes ++ .token .comma comma :: rest.lexemes
end

section Items

variable {p : Lexeme → Prop}

/-- What holds of the items of numerals holds of the first and of the items of the others. -/
theorem NumeralList.forall_more {digits : Spanned String} {comma : ByteRange} {rest : NumeralList}
    (h : ∀ item ∈ (more digits comma rest).lexemes, p item) :
    p (numeral digits) ∧ ∀ item ∈ rest.lexemes, p item := by
  simp only [lexemes, List.forall_mem_cons] at h
  exact ⟨h.1, h.2.2⟩

/-- What holds of the items of a call holds of the items of its arguments. -/
theorem forall_arguments {reserved : Keyword} {call : Call} {arguments : List Lexeme}
    {closing : ByteRange} (h : ∀ item ∈ wrap reserved call arguments closing, p item) :
    ∀ item ∈ arguments, p item := by
  simp only [wrap, List.forall_mem_cons, List.forall_mem_append] at h
  exact h.2.2.1

/-- What holds of the items of a bounded range holds of its bounds. -/
theorem forall_bounds {call : Call} {lower upper : Spanned String} {comma closing : ByteRange}
    (h : ∀ item ∈ (Phrase.var call lower comma upper closing).lexemes, p item) :
    p (numeral lower) ∧ p (numeral upper) := by
  have hbounds := forall_arguments h
  simp only [List.forall_mem_cons] at hbounds
  exact ⟨hbounds.1, hbounds.2.2.1⟩

/-- What holds of the items of a group holds of the items of its members. -/
theorem forall_members {opening closing : ByteRange} {members : PhraseList}
    (h : ∀ item ∈ (Phrase.group opening members closing).lexemes, p item) :
    ∀ item ∈ members.lexemes, p item := by
  simp only [Phrase.lexemes, List.forall_mem_cons, List.forall_mem_append] at h
  exact h.2.1

/-- What holds of the items of operands holds of those of the first and of the others. -/
theorem PhraseList.forall_more {operand : Phrase} {comma : ByteRange} {rest : PhraseList}
    (h : ∀ item ∈ (more operand comma rest).lexemes, p item) :
    (∀ item ∈ operand.lexemes, p item) ∧ ∀ item ∈ rest.lexemes, p item := by
  simp only [lexemes, List.forall_mem_cons, List.forall_mem_append] at h
  exact ⟨h.1, h.2.2⟩

/-- What holds of the items of a field holds of its label and of the items of its type. -/
theorem FieldList.forall_last {label : Spanned Label} {equals : ByteRange} {type : Phrase}
    (h : ∀ item ∈ (last label equals type).lexemes, p item) :
    p (.token label.value.token label.range) ∧ ∀ item ∈ type.lexemes, p item := by
  simp only [lexemes, labelled, List.forall_mem_cons] at h
  exact ⟨h.1, h.2.2⟩

/-- What holds of the items of fields holds of the label and the type of the first, and of the items
of the others. -/
theorem FieldList.forall_more {label : Spanned Label} {equals comma : ByteRange} {type : Phrase}
    {rest : FieldList} (h : ∀ item ∈ (more label equals type comma rest).lexemes, p item) :
    p (.token label.value.token label.range) ∧ (∀ item ∈ type.lexemes, p item) ∧
      ∀ item ∈ rest.lexemes, p item := by
  simp only [lexemes, labelled, List.cons_append, List.forall_mem_cons,
    List.forall_mem_append] at h
  exact ⟨h.1, h.2.2.1, h.2.2.2.2⟩

end Items

/-- No stray character is among the items of numerals. -/
theorem NumeralList.stray_not_mem (values : NumeralList) (range : ByteRange) :
    .stray range ∉ values.lexemes := by
  induction values with
  | last digits => simp [lexemes, numeral]
  | more digits comma rest ih => simp [lexemes, numeral, ih]

mutual
/-- No stray character is among the items of an operand. -/
theorem Phrase.stray_not_mem (phrase : Phrase) (range : ByteRange) :
    .stray range ∉ phrase.lexemes := by
  cases phrase with
  | number | name | var => simp [Phrase.lexemes, numeral, wrap]
  | record call fields closing => simp [Phrase.lexemes, wrap, fields.stray_not_mem range]
  | enum call values closing => simp [Phrase.lexemes, wrap, values.stray_not_mem range]
  | group opening members closing => simp [Phrase.lexemes, members.stray_not_mem range]

/-- No stray character is among the items of a list of operands. -/
theorem PhraseList.stray_not_mem (phrases : PhraseList) (range : ByteRange) :
    .stray range ∉ phrases.lexemes := by
  cases phrases with
  | last operand => exact operand.stray_not_mem range
  | more operand comma rest =>
      simp [PhraseList.lexemes, operand.stray_not_mem range, rest.stray_not_mem range]

/-- No stray character is among the items of fields. -/
theorem FieldList.stray_not_mem (fields : FieldList) (range : ByteRange) :
    .stray range ∉ fields.lexemes := by
  cases fields with
  | last label equals type =>
      simp [FieldList.lexemes, labelled, type.stray_not_mem range]
  | more label equals type comma rest =>
      simp [FieldList.lexemes, labelled, type.stray_not_mem range, rest.stray_not_mem range]
end

/-! ## The terms of a derivation -/

/-- The word of a numeral that fits. -/
def word (digits : Spanned String) : Spanned UInt64 :=
  ⟨digits.range, .ofNat (Decimal.value digits.value)⟩

/-- The words of numerals. -/
def NumeralList.words : NumeralList → List (Spanned UInt64)
  | .last digits => [word digits]
  | .more digits _ rest => word digits :: rest.words

mutual
/-- The term that a derivation of an operand stands for. -/
def Phrase.term : Phrase → Term String
  | .number digits => .number digits.range (word digits).value
  | .name text => .name text.range text.value
  | .record call fields closing => .record (call.keyword.merge closing) fields.terms
  | .enum call values closing => .enum (call.keyword.merge closing) values.words
  | .var call lower _ upper closing => .var (call.keyword.merge closing) (word lower) (word upper)
  | .group opening members closing => .group (opening.merge closing) members.terms

/-- The terms that a derivation of a list of operands stands for. -/
def PhraseList.terms : PhraseList → List (Term String)
  | .last operand => [operand.term]
  | .more operand _ rest => operand.term :: rest.terms

/-- The fields that a derivation of a list of fields stands for. -/
def FieldList.terms : FieldList → TermFields String
  | .last label _ type => [(⟨label.range, label.value.text⟩, type.term)]
  | .more label _ type _ rest => (⟨label.range, label.value.text⟩, type.term) :: rest.terms
end

mutual
/-- The greatest number of records that lie one inside another in an operand, through groups. -/
def Phrase.depth : Phrase → Nat
  | .number _ | .name _ | .enum _ _ _ | .var _ _ _ _ _ => 0
  | .record _ fields _ => fields.depth + 1
  | .group _ members _ => members.depth

/-- The greatest depth of the operands of a list. -/
def PhraseList.depth : PhraseList → Nat
  | .last operand => operand.depth
  | .more operand _ rest => max operand.depth rest.depth

/-- The greatest depth of the types of fields. -/
def FieldList.depth : FieldList → Nat
  | .last _ _ type => type.depth
  | .more _ _ type _ rest => max type.depth rest.depth
end

/-! ## Unambiguity -/

/-- The items do not begin with a comma, so that a list which they follow has ended. -/
def Stops (items : List Lexeme) : Prop :=
  ∀ range rest, items ≠ .token .comma range :: rest

@[simp] theorem stops_nil : Stops [] :=
  nofun

@[simp] theorem stops_closeParen (range : ByteRange) (rest : List Lexeme) :
    Stops (.token .closeParen range :: rest) := by
  intro comma others h
  cases h

@[simp] theorem not_stops_comma (range : ByteRange) (rest : List Lexeme) :
    ¬ Stops (.token .comma range :: rest) :=
  fun h => h range rest rfl

/-- Labels that are written as the same token are the same. -/
theorem Label.token_injective {first second : Label} (h : first.token = second.token) :
    first = second := by
  cases first <;> cases second <;> simp_all [Label.token]

/-- Numerals that are written as the same item are the same. -/
theorem numeral_injective {first second : Spanned String} (h : numeral first = numeral second) :
    first = second := by
  cases first
  cases second
  simp_all [numeral]

/-- Labels that are written as the same item are the same. -/
theorem label_injective {first second : Spanned Label}
    (htoken : first.value.token = second.value.token) (hrange : first.range = second.range) :
    first = second := by
  cases first
  cases second
  simp only [Spanned.mk.injEq]
  exact ⟨hrange, Label.token_injective htoken⟩

/-- Two lists of numerals that begin the same items, and stop, are the same. -/
theorem NumeralList.lexemes_append_inj {first second : NumeralList} {rest other : List Lexeme}
    (h : first.lexemes ++ rest = second.lexemes ++ other) (hrest : Stops rest)
    (hother : Stops other) : first = second ∧ rest = other := by
  induction first generalizing second with
  | last digits =>
      cases second with
      | last others =>
          simp only [lexemes, List.singleton_append, List.cons.injEq] at h
          rw [numeral_injective h.1, h.2]
          exact ⟨rfl, rfl⟩
      -- A comma would go on a list that has stopped.
      | more others comma tail =>
          simp only [lexemes, List.cons_append, List.nil_append, List.cons.injEq] at h
          exact absurd h.2 (hrest _ _)
  | more digits comma tail ih =>
      cases second with
      | last others =>
          simp only [lexemes, List.cons_append, List.nil_append, List.cons.injEq] at h
          exact absurd h.2.symm (hother _ _)
      | more others comma' tail' =>
          simp only [lexemes, List.cons_append, List.cons.injEq, Lexeme.token.injEq, true_and] at h
          obtain ⟨hdigits, rfl, htail⟩ := h
          obtain ⟨rfl, rfl⟩ := ih htail
          rw [numeral_injective hdigits]
          exact ⟨rfl, rfl⟩

/-- What stands in parentheses behind a keyword is determined by the items, if the parentheses
close where the arguments stop. -/
theorem wrap_append_inj {reserved other : Keyword} {call call' : Call}
    {arguments arguments' : List Lexeme} {closing closing' : ByteRange} {rest rest' : List Lexeme}
    (h : wrap reserved call arguments closing ++ rest =
      wrap other call' arguments' closing' ++ rest') :
    reserved = other ∧ call = call' ∧
      arguments ++ .token .closeParen closing :: rest =
        arguments' ++ .token .closeParen closing' :: rest' := by
  obtain ⟨keyword, opening⟩ := call
  obtain ⟨keyword', opening'⟩ := call'
  simp only [wrap, List.cons_append, List.append_assoc, List.nil_append, List.cons.injEq,
    Lexeme.token.injEq, Token.keyword.injEq, true_and] at h
  obtain ⟨⟨rfl, rfl⟩, rfl, h⟩ := h
  exact ⟨rfl, rfl, h⟩

mutual
/-- Two operands that begin the same items are the same. -/
theorem Phrase.lexemes_append_inj {first second : Phrase} {rest other : List Lexeme}
    (h : first.lexemes ++ rest = second.lexemes ++ other) : first = second ∧ rest = other := by
  cases first with
  | number digits =>
      cases second with
      | number others =>
          simp only [Phrase.lexemes, List.singleton_append, List.cons.injEq] at h
          rw [numeral_injective h.1, h.2]
          exact ⟨rfl, rfl⟩
      | _ => simp [Phrase.lexemes, numeral, wrap] at h
  | name text =>
      cases second with
      | name others =>
          obtain ⟨range, text⟩ := text
          obtain ⟨range', text'⟩ := others
          simp_all [Phrase.lexemes]
      | _ => simp [Phrase.lexemes, numeral, wrap] at h
  | record call fields closing =>
      cases second with
      | record call' fields' closing' =>
          simp only [Phrase.lexemes] at h
          obtain ⟨-, rfl, harguments⟩ := wrap_append_inj h
          obtain ⟨rfl, hend⟩ := FieldList.lexemes_append_inj harguments (by simp) (by simp)
          simp_all
      | _ => simp [Phrase.lexemes, numeral, wrap] at h
  | enum call values closing =>
      cases second with
      | enum call' values' closing' =>
          simp only [Phrase.lexemes] at h
          obtain ⟨-, rfl, harguments⟩ := wrap_append_inj h
          obtain ⟨rfl, hend⟩ := NumeralList.lexemes_append_inj harguments (by simp) (by simp)
          simp_all
      | _ => simp [Phrase.lexemes, numeral, wrap] at h
  | var call lower comma upper closing =>
      cases second with
      | var call' lower' comma' upper' closing' =>
          simp only [Phrase.lexemes] at h
          obtain ⟨-, rfl, harguments⟩ := wrap_append_inj h
          simp only [List.cons_append, List.nil_append, List.cons.injEq, Lexeme.token.injEq,
            true_and] at harguments
          obtain ⟨hlower, rfl, hupper, rfl, rfl⟩ := harguments
          rw [numeral_injective hlower, numeral_injective hupper]
          exact ⟨rfl, rfl⟩
      | _ => simp [Phrase.lexemes, numeral, wrap] at h
  | group opening members closing =>
      cases second with
      | group opening' members' closing' =>
          simp only [Phrase.lexemes, List.cons_append, List.append_assoc, List.nil_append,
            List.cons.injEq, Lexeme.token.injEq, true_and] at h
          obtain ⟨rfl, hmembers⟩ := h
          obtain ⟨rfl, hend⟩ := PhraseList.lexemes_append_inj hmembers (by simp) (by simp)
          simp_all
      | _ => simp [Phrase.lexemes, numeral, wrap] at h

/-- Two lists of operands that begin the same items, and stop, are the same. -/
theorem PhraseList.lexemes_append_inj {first second : PhraseList} {rest other : List Lexeme}
    (h : first.lexemes ++ rest = second.lexemes ++ other) (hrest : Stops rest)
    (hother : Stops other) : first = second ∧ rest = other := by
  cases first with
  | last operand =>
      cases second with
      | last operand' =>
          obtain ⟨rfl, rfl⟩ := Phrase.lexemes_append_inj h
          exact ⟨rfl, rfl⟩
      | more operand' comma tail =>
          simp only [PhraseList.lexemes, List.append_assoc] at h
          obtain ⟨rfl, rfl⟩ := Phrase.lexemes_append_inj h
          simp at hrest
  | more operand comma tail =>
      cases second with
      | last operand' =>
          simp only [PhraseList.lexemes, List.append_assoc] at h
          obtain ⟨rfl, rfl⟩ := Phrase.lexemes_append_inj h
          simp at hother
      | more operand' comma' tail' =>
          simp only [PhraseList.lexemes, List.append_assoc] at h
          obtain ⟨rfl, htail⟩ := Phrase.lexemes_append_inj h
          simp only [List.cons_append, List.cons.injEq, Lexeme.token.injEq, true_and] at htail
          obtain ⟨rfl, htail⟩ := htail
          obtain ⟨rfl, rfl⟩ := PhraseList.lexemes_append_inj htail hrest hother
          exact ⟨rfl, rfl⟩

/-- Two lists of fields that begin the same items, and stop, are the same. -/
theorem FieldList.lexemes_append_inj {first second : FieldList} {rest other : List Lexeme}
    (h : first.lexemes ++ rest = second.lexemes ++ other) (hrest : Stops rest)
    (hother : Stops other) : first = second ∧ rest = other := by
  cases first with
  | last label equals type =>
      cases second with
      | last label' equals' type' =>
          simp only [FieldList.lexemes, labelled, List.cons_append, List.cons.injEq,
            Lexeme.token.injEq, true_and] at h
          obtain ⟨⟨htoken, hrange⟩, rfl, h⟩ := h
          obtain ⟨rfl, rfl⟩ := Phrase.lexemes_append_inj h
          rw [label_injective htoken hrange]
          exact ⟨rfl, rfl⟩
      | more label' equals' type' comma tail =>
          simp only [FieldList.lexemes, labelled, List.cons_append, List.append_assoc,
            List.cons.injEq] at h
          obtain ⟨rfl, rfl⟩ := Phrase.lexemes_append_inj h.2.2
          simp at hrest
  | more label equals type comma tail =>
      cases second with
      | last label' equals' type' =>
          simp only [FieldList.lexemes, labelled, List.cons_append, List.append_assoc,
            List.cons.injEq] at h
          obtain ⟨rfl, rfl⟩ := Phrase.lexemes_append_inj h.2.2
          simp at hother
      | more label' equals' type' comma' tail' =>
          simp only [FieldList.lexemes, labelled, List.cons_append, List.append_assoc,
            List.cons.injEq, Lexeme.token.injEq, true_and] at h
          obtain ⟨⟨htoken, hrange⟩, rfl, htype⟩ := h
          obtain ⟨rfl, htail⟩ := Phrase.lexemes_append_inj htype
          simp only [List.cons.injEq, Lexeme.token.injEq, true_and] at htail
          obtain ⟨rfl, htail⟩ := htail
          obtain ⟨rfl, rfl⟩ := FieldList.lexemes_append_inj htail hrest hother
          rw [label_injective htoken hrange]
          exact ⟨rfl, rfl⟩
end

/-- A list of items has at most one derivation. -/
theorem PhraseList.lexemes_injective {first second : PhraseList}
    (h : first.lexemes = second.lexemes) : first = second := by
  have happend : first.lexemes ++ [] = second.lexemes ++ [] := by rw [h]
  exact (lexemes_append_inj happend stops_nil stops_nil).1

end Grammar

end ArrayShape
