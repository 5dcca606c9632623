import ArrayShape.Proofs.NormalForm
import ArrayShape.Proofs.RoundTrip

/-!
# Leaves

The leaves of an operand are the operands in it that are no records, from left to right. A leaf that
is a type variable or an element type is named: in a text it is written as a name.
`Token.operandNames` are the names among tokens that stand for operands, which are those without an
equals sign behind them. The named leaves of a shape that was read from a text are the ones that the
operand names of the text stand for, one name after another (`namedLeaves_of_parse`), and so they
are for the operand names of its printed form (`namedLeaves_text`).
-/

namespace ArrayShape

variable {Name : Type}

/-! ## The leaves of operands -/

namespace Operand

mutual
/-- The operands in an operand that are no records, in order and with repetitions. -/
def leaves : Operand Name → List (Operand Name)
  | .record fields => fieldsLeaves fields
  | operand => [operand]

/-- The leaves of the types of fields, one type after another. -/
def fieldsLeaves : Fields Name → List (Operand Name)
  | [] => []
  | (_, type) :: rest => type.leaves ++ fieldsLeaves rest
end

/-- An operand that is written as a name: a type variable or an element type. -/
def isNamed : Operand Name → Bool
  | .typeVar _ | .dtype _ => true
  | .integer _ | .record _ | .enum _ | .var _ _ => false

/-- The leaves of an operand that are written as names. -/
def namedLeaves (operand : Operand Name) : List (Operand Name) :=
  operand.leaves.filter isNamed

/-- What can be read off named operands only is read off all leaves as off the named ones. -/
theorem filterMap_namedLeaves {α : Type} {read : Operand Name → Option α}
    (hread : ∀ leaf, leaf.isNamed = false → read leaf = none) (operand : Operand Name) :
    operand.namedLeaves.filterMap read = operand.leaves.filterMap read := by
  have hsame : (fun leaf : Operand Name => if leaf.isNamed then read leaf else none) = read := by
    funext leaf
    cases hnamed : leaf.isNamed with
    | true => rw [if_pos rfl]
    | false => rw [hread leaf hnamed, ite_self]
  rw [namedLeaves, List.filterMap_filter, hsame]

end Operand

/-! ## The names of terms -/

namespace Term

mutual
/-- The names in a term that stand for operands, in order and with repetitions. -/
def names : Term Name → List Name
  | .name _ word => [word]
  | .record _ fields => fieldsNames fields
  | .group _ members => membersNames members
  | .number _ _ | .enum _ _ | .var _ _ _ => []

/-- The names of terms, one term after another. -/
def membersNames : List (Term Name) → List Name
  | [] => []
  | member :: rest => member.names ++ membersNames rest

/-- The names of the types of fields, one type after another. -/
def fieldsNames : TermFields Name → List Name
  | [] => []
  | (_, type) :: rest => type.names ++ fieldsNames rest
end

end Term

namespace Shape

open Operand (leaves fieldsLeaves namedLeaves isNamed)

variable [DecidableEq Name] {options : Options} {resolve : Name → Operand Name}

mutual
/-- The operands that a term contributes have the named leaves that its names stand for. -/
theorem namedLeaves_of_flatten (term : Term Name) {operands : List (Operand Name)}
    (h : flatten options resolve term = .ok operands) :
    operands.flatMap namedLeaves = term.names.flatMap fun name => (resolve name).namedLeaves := by
  cases term with
  | name range word =>
      rw [flatten, Except.ok.injEq] at h
      subst h
      simp [Term.names]
  | record range fields =>
      obtain ⟨-, described, hdescribed, rfl⟩ := flatten_record_eq_ok_iff.1 h
      rw [Term.names, List.flatMap_singleton]
      exact namedLeaves_of_flattenFields fields hdescribed
  | group range members =>
      rw [flatten] at h
      exact namedLeaves_of_flattenAll members h
  | var range lower upper =>
      obtain ⟨-, rfl⟩ := flatten_var_eq_ok_iff.1 h
      simp [Term.names, namedLeaves, leaves, isNamed]
  | _ =>
      rw [flatten, Except.ok.injEq] at h
      subst h
      simp [Term.names, namedLeaves, leaves, isNamed]

/-- The operands that terms contribute have the named leaves that their names stand for. -/
theorem namedLeaves_of_flattenAll (terms : List (Term Name)) {operands : List (Operand Name)}
    (h : flattenAll options resolve terms = .ok operands) :
    operands.flatMap namedLeaves =
      (Term.membersNames terms).flatMap fun name => (resolve name).namedLeaves := by
  cases terms with
  | nil =>
      rw [flattenAll, Except.ok.injEq] at h
      subst h
      rfl
  | cons term rest =>
      obtain ⟨first, others, hfirst, hothers, rfl⟩ := flattenAll_cons_eq_ok_iff.1 h
      rw [Term.membersNames, List.flatMap_append, List.flatMap_append,
        namedLeaves_of_flatten term hfirst, namedLeaves_of_flattenAll rest hothers]

/-- The fields that fields describe have the named leaves that the names in their types stand
for. -/
theorem namedLeaves_of_flattenFields (fields : TermFields Name) {described : Fields Name}
    (h : flattenFields options resolve fields = .ok described) :
    (fieldsLeaves described).filter isNamed =
      (Term.fieldsNames fields).flatMap fun name => (resolve name).namedLeaves := by
  match fields with
  | [] =>
      rw [flattenFields, Except.ok.injEq] at h
      subst h
      rfl
  | (label, type) :: rest =>
      obtain ⟨operand, others, hoperand, hothers, rfl⟩ := flattenFields_cons_eq_ok_iff.1 h
      have htype := namedLeaves_of_flatten type hoperand
      rw [List.flatMap_singleton] at htype
      rw [fieldsLeaves, Term.fieldsNames, List.filter_append, List.flatMap_append, ← htype,
        namedLeaves_of_flattenFields rest hothers, namedLeaves]
end

end Shape

/-! ## The names of tokens -/

/-- The names among tokens that stand for operands. A name with an equals sign behind it is a
label. -/
def Token.operandNames : List Token → List String
  | [] => []
  | .name text :: rest =>
    if rest.head? = some .equals then operandNames rest else text :: operandNames rest
  | _ :: rest => operandNames rest

namespace Grammar

open Token (operandNames)

variable {rest : List Token}

/-- A call has the names of its arguments. -/
theorem operandNames_wrap {reserved : Keyword} {call : Parser.Call} {inner : List Lexeme}
    {closing : ByteRange} {names : List String}
    (h : operandNames (carried inner ++ .closeParen :: rest) = names ++ operandNames rest) :
    operandNames (carried (wrap reserved call inner closing) ++ rest) =
      names ++ operandNames rest := by
  simpa only [wrap, carried_token, carried_append, carried_nil, List.cons_append,
    List.append_assoc, List.nil_append, operandNames] using h

/-- Numerals have no names. -/
theorem operandNames_numerals (values : NumeralList) (rest : List Token) :
    operandNames (carried values.lexemes ++ rest) = operandNames rest := by
  induction values with
  | last digits => simp [NumeralList.lexemes, numeral, operandNames]
  | more digits comma tail ih => simp [NumeralList.lexemes, numeral, operandNames, ih]

/-- A label is no name of an operand. -/
theorem operandNames_labelled (label : Spanned Label) (equals : ByteRange) (type : List Lexeme) :
    operandNames (carried (labelled label equals type) ++ rest) =
      operandNames (carried type ++ rest) := by
  obtain ⟨range, label⟩ := label
  cases label <;> simp [labelled, Label.token, operandNames]

mutual
/-- The tokens of an operand have the names of its term, whatever follows. -/
theorem operandNames_phrase (phrase : Phrase) (rest : List Token) (hrest : Follows rest) :
    operandNames (carried phrase.lexemes ++ rest) = phrase.term.names ++ operandNames rest := by
  cases phrase with
  | number digits => simp [Phrase.lexemes, numeral, Phrase.term, Term.names, operandNames]
  | name text =>
      simp only [Phrase.lexemes, carried_token, carried_nil, List.singleton_append, operandNames,
        Phrase.term, Term.names]
      -- No equals sign follows, so the name is no label.
      rw [if_neg hrest]
  | record call fields closing =>
      refine operandNames_wrap ?_
      rw [operandNames_fields fields _ (by simp [Follows])]
      simp [Phrase.term, Term.names, operandNames]
  | enum call values closing =>
      refine operandNames_wrap ?_
      rw [operandNames_numerals]
      simp [Phrase.term, Term.names, operandNames]
  | var call lower comma upper closing =>
      refine operandNames_wrap ?_
      simp [numeral, Phrase.term, Term.names, operandNames]
  | group opening members closing =>
      have hmembers := operandNames_members members (.closeParen :: rest) (by simp [Follows])
      simp only [Phrase.lexemes, carried_token, carried_append, carried_nil, List.cons_append,
        List.append_assoc, List.nil_append, operandNames, hmembers, Phrase.term, Term.names]

/-- The tokens of operands have the names of their terms. -/
theorem operandNames_members (members : PhraseList) (rest : List Token) (hrest : Follows rest) :
    operandNames (carried members.lexemes ++ rest) =
      Term.membersNames members.terms ++ operandNames rest := by
  cases members with
  | last operand =>
      rw [PhraseList.lexemes, operandNames_phrase operand rest hrest]
      simp [PhraseList.terms, Term.membersNames]
  | more operand comma tail =>
      have hoperand := operandNames_phrase operand (.comma :: (carried tail.lexemes ++ rest))
        (by simp [Follows])
      simp [PhraseList.lexemes, PhraseList.terms, Term.membersNames, hoperand, operandNames,
        operandNames_members tail rest hrest]

/-- The tokens of fields have the names of the terms of their types. -/
theorem operandNames_fields (fields : FieldList) (rest : List Token) (hrest : Follows rest) :
    operandNames (carried fields.lexemes ++ rest) =
      Term.fieldsNames fields.terms ++ operandNames rest := by
  cases fields with
  | last label equals type =>
      rw [FieldList.lexemes, operandNames_labelled, operandNames_phrase type rest hrest]
      simp [FieldList.terms, Term.fieldsNames]
  | more label equals type comma tail =>
      have htype := operandNames_phrase type (.comma :: (carried tail.lexemes ++ rest))
        (by simp [Follows])
      simp only [FieldList.lexemes, carried_append, carried_token, List.append_assoc,
        List.cons_append]
      rw [operandNames_labelled, htype]
      simp [FieldList.terms, Term.fieldsNames, operandNames, operandNames_fields tail rest hrest]
end

/-- What a derivation of a text describes has the named leaves that the operand names of the text
stand for. -/
theorem namedLeaves_of_lexemes {phrases : PhraseList} {text : String} {options : Options}
    {operands : List (Operand String)} (hitems : phrases.lexemes = Lexeme.ofText text)
    (h : Shape.flattenAll options Operand.ofName phrases.terms = .ok operands) :
    operands.flatMap Operand.namedLeaves =
      (operandNames (Token.ofText text)).flatMap fun name => (Operand.ofName name).namedLeaves := by
  have hnames := operandNames_members phrases [] (by simp [Follows])
  simp only [List.append_nil, operandNames] at hnames
  have htokens : carried phrases.lexemes = Token.ofText text := by
    rw [hitems, carried, Token.ofText]
  rw [Shape.namedLeaves_of_flattenAll phrases.terms h, ← hnames, htokens]

end Grammar

namespace Shape

variable {options : Options} {source : String} {shape : Shape String}

/-- A shape that was read from a text has the named leaves that the operand names of the text stand
for. -/
theorem namedLeaves_of_parse (h : parse options source = .ok shape) :
    shape.operands.flatMap Operand.namedLeaves =
      (Token.operandNames (Token.ofText source)).flatMap
        fun name => (Operand.ofName name).namedLeaves := by
  obtain ⟨phrases, hitems, -, -, hflatten⟩ := parse_eq_ok_iff.1 h
  exact Grammar.namedLeaves_of_lexemes hitems hflatten

/-- A shape that was read from a text has the named leaves that the operand names of its printed
form stand for. -/
theorem namedLeaves_text (h : parse options source = .ok shape) :
    shape.operands.flatMap Operand.namedLeaves =
      (Token.operandNames (Token.ofText shape.text)).flatMap
        fun name => (Operand.ofName name).namedLeaves := by
  obtain ⟨hne, hparts⟩ := writable_of_parse h
  obtain ⟨phrases, hitems, -, -, hflatten⟩ :=
    exists_derivation hne fun part hpart => (hparts part hpart).1
  exact Grammar.namedLeaves_of_lexemes hitems hflatten

end Shape

end ArrayShape
