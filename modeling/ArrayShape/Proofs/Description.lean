import ArrayShape.Proofs.Checks
import ArrayShape.Proofs.Printing
import ArrayShape.Proofs.Reading
import ArrayShape.Shape.Parse

/-!
# What an accepted text describes

A text is accepted when it has a derivation whose terms describe operands (`parse_eq_ok_iff`). The
operands are then at least one, and each of their parts is writable: names in a text are identifiers
and no keywords, a name that stands for an element type or a composite type does not become a type
variable, and the grammar has no empty list (`writable_of_parse`).
-/

namespace ArrayShape

/-- The token of an item is a token that a text can hold. -/
def Lexeme.Proper : Lexeme → Prop
  | .token found _ => found.Proper
  | .stray _ => True

/-- The items of a text are proper. -/
theorem Lexeme.proper_of_mem_ofText {source : String} {item : Lexeme}
    (h : item ∈ Lexeme.ofText source) : item.Proper := by
  cases item with
  | token token range => exact Lexer.lexemesFrom_proper h
  | stray range => trivial

namespace Operand

/-- A composite type with a name is listed. -/
theorem mem_named {text : String} {type : Operand String} (h : ofTypeName? text = some type) :
    (text, type) ∈ named := by
  obtain ⟨before, after, hnamed, -⟩ := List.lookup_eq_some_iff.1 h
  simp [hnamed]

/-- Every part of a composite type with a name is writable. -/
theorem writable_of_mem_named {entry : String × Operand String} (h : entry ∈ named) :
    ∀ part ∈ entry.2.parts, part.Writable := by
  simp only [named, List.mem_singleton] at h
  subst h
  simp only [parts, fieldsParts, List.cons_append, List.nil_append, List.forall_mem_cons]
  -- The labels are literals, and the types of the fields are element types.
  exact ⟨⟨List.cons_ne_nil _ _, by decide⟩, trivial, trivial, trivial, trivial, by simp⟩

/-- Every part of a composite type with a name passes the checks. -/
theorem passes_of_mem_named {options : Options} {entry : String × Operand String}
    (h : entry ∈ named) : ∀ part ∈ entry.2.parts, part.Passes options := by
  simp only [named, List.mem_singleton] at h
  subst h
  simp [parts, fieldsParts, Passes]

/-- What a name stands for passes the checks. -/
theorem passes_ofName (options : Options) (text : String) :
    ∀ part ∈ (ofName text).parts, part.Passes options := by
  unfold ofName
  cases DType.ofName? text with
  | some scalar => simp [parts, Passes]
  | none =>
      cases htype : ofTypeName? text with
      | some type => exact passes_of_mem_named (mem_named htype)
      | none => simp [parts, Passes]

/-- What a name in a text stands for is writable. -/
theorem writable_ofName {text : String} (h : (Token.name text).Proper) :
    ∀ part ∈ (ofName text).parts, part.Writable := by
  unfold ofName
  cases hscalar : DType.ofName? text with
  | some scalar => simp [parts, Writable]
  | none =>
      cases htype : ofTypeName? text with
      | some type => exact writable_of_mem_named (mem_named htype)
      | none => simpa [parts, Writable, hscalar, htype, Token.Proper] using h

end Operand

namespace Grammar

open Shape

/-- The text of a label in a text is an identifier. -/
theorem Label.isIdentifier_text {label : Label} (h : label.token.Proper) :
    Text.isIdentifier label.text = true := by
  cases label with
  | name text => exact h.1
  | keyword reserved => exact Lexer.isIdentifier_keyword reserved

/-- A list of numerals has at least one word. -/
theorem NumeralList.words_ne_nil (values : NumeralList) : values.words ≠ [] := by
  cases values <;> simp [words]

mutual
/-- The items of an operand describe at least one operand, and writable parts. -/
theorem writable_of_flatten (phrase : Phrase) (hproper : ∀ item ∈ phrase.lexemes, item.Proper)
    (operands : List (Operand String))
    (h : flatten .relaxed Operand.ofName phrase.term = .ok operands) :
    operands ≠ [] ∧ ∀ part ∈ operands.flatMap Operand.parts, part.Writable := by
  cases phrase with
  | number digits =>
      simp only [Phrase.term, flatten, Except.ok.injEq] at h
      subst h
      simp [Operand.parts, Operand.Writable]
  | name text =>
      simp only [Phrase.term, flatten, Except.ok.injEq] at h
      subst h
      have htext : (Token.name text.value).Proper := hproper (.token (.name text.value) text.range)
        (by simp [Phrase.lexemes])
      exact ⟨nofun, by simpa using Operand.writable_ofName htext⟩
  | record call fields closing =>
      rw [Phrase.term, flatten_record_eq_ok_iff] at h
      obtain ⟨-, described, hdescribed, rfl⟩ := h
      have hfields : ∀ item ∈ fields.lexemes, item.Proper := forall_arguments hproper
      obtain ⟨hne, hlabels, hparts⟩ := writable_of_flattenFields fields hfields described hdescribed
      refine ⟨nofun, ?_⟩
      simp only [List.flatMap_singleton, Operand.parts, List.forall_mem_cons]
      exact ⟨⟨hne, hlabels⟩, hparts⟩
  | enum call values closing =>
      simp only [Phrase.term, flatten, Except.ok.injEq] at h
      subst h
      simp [Operand.parts, Operand.Writable, NumeralList.words_ne_nil]
  | var call lower comma upper closing =>
      rw [Phrase.term, flatten_var_eq_ok_iff] at h
      obtain ⟨-, rfl⟩ := h
      simp [Operand.parts, Operand.Writable]
  | group opening members closing =>
      have hmembers : ∀ item ∈ members.lexemes, item.Proper := forall_members hproper
      rw [Phrase.term, flatten] at h
      exact writable_of_flattenAll members hmembers operands h

/-- The items of a list of operands describe at least one operand, and writable parts. -/
theorem writable_of_flattenAll (phrases : PhraseList)
    (hproper : ∀ item ∈ phrases.lexemes, item.Proper) (operands : List (Operand String))
    (h : flattenAll .relaxed Operand.ofName phrases.terms = .ok operands) :
    operands ≠ [] ∧ ∀ part ∈ operands.flatMap Operand.parts, part.Writable := by
  cases phrases with
  | last operand =>
      rw [PhraseList.terms, flattenAll_cons_eq_ok_iff] at h
      obtain ⟨first, others, hfirst, hothers, rfl⟩ := h
      rw [flattenAll, Except.ok.injEq] at hothers
      subst hothers
      rw [List.append_nil]
      exact writable_of_flatten operand hproper first hfirst
  | more operand comma rest =>
      obtain ⟨hoperand, hrest⟩ := PhraseList.forall_more hproper
      rw [PhraseList.terms, flattenAll_cons_eq_ok_iff] at h
      obtain ⟨first, others, hfirst, hothers, rfl⟩ := h
      obtain ⟨hne, hparts⟩ := writable_of_flatten operand hoperand first hfirst
      obtain ⟨-, hlast⟩ := writable_of_flattenAll rest hrest others hothers
      rw [List.flatMap_append, List.forall_mem_append]
      exact ⟨by simp [hne], hparts, hlast⟩

/-- The items of fields describe at least one field, with identifiers as labels and writable
parts. -/
theorem writable_of_flattenFields (fields : FieldList)
    (hproper : ∀ item ∈ fields.lexemes, item.Proper) (described : Fields String)
    (h : flattenFields .relaxed Operand.ofName fields.terms = .ok described) :
    described ≠ [] ∧ (∀ field ∈ described, Text.isIdentifier field.1 = true) ∧
      ∀ part ∈ Operand.fieldsParts described, part.Writable := by
  cases fields with
  | last label equals type =>
      obtain ⟨hlabel, htype⟩ := FieldList.forall_last hproper
      rw [FieldList.terms, flattenFields_cons_eq_ok_iff] at h
      obtain ⟨operand, others, hoperand, hothers, rfl⟩ := h
      rw [flattenFields, Except.ok.injEq] at hothers
      subst hothers
      obtain ⟨-, hparts⟩ := writable_of_flatten type htype [operand] hoperand
      exact ⟨nofun, by simpa using Label.isIdentifier_text hlabel,
        by simpa [Operand.fieldsParts] using hparts⟩
  | more label equals type comma rest =>
      obtain ⟨hlabel, htype, hrest⟩ := FieldList.forall_more hproper
      rw [FieldList.terms, flattenFields_cons_eq_ok_iff] at h
      obtain ⟨operand, others, hoperand, hothers, rfl⟩ := h
      obtain ⟨-, hparts⟩ := writable_of_flatten type htype [operand] hoperand
      obtain ⟨-, hlabels, hlast⟩ := writable_of_flattenFields rest hrest others hothers
      rw [List.flatMap_singleton] at hparts
      rw [List.forall_mem_cons, Operand.fieldsParts, List.forall_mem_append]
      exact ⟨nofun, ⟨Label.isIdentifier_text hlabel, hlabels⟩, hparts, hlast⟩
end

end Grammar

namespace Shape

open Grammar

variable {options : Options} {source : String} {shape : Shape String}

/-- A text is read as a shape exactly when it has a derivation whose terms describe the shape. -/
theorem parse_eq_ok_iff :
    parse options source = .ok shape ↔
      ∃ phrases : PhraseList, phrases.lexemes = Lexeme.ofText source ∧
        (∀ item ∈ Lexeme.ofText source, item.Fits) ∧ phrases.depth ≤ maxRecordDepth ∧
          flattenAll options Operand.ofName phrases.terms = .ok shape.operands := by
  constructor
  · intro h
    unfold parse at h
    split at h
    · cases h
    · next tree htree =>
        obtain ⟨phrases, hitems, hfits, hdepth, hterms⟩ := ofLexemes_eq_ok_iff.1 htree
        split at h
        · cases h
        · next found hfound =>
            cases h
            refine ⟨phrases, hitems, hfits, hdepth, ?_⟩
            rw [resolve, ofTree_eq, hterms] at hfound
            cases hflatten : flattenAll options Operand.ofName phrases.terms with
            | error error => simp [hflatten, Except.map] at hfound
            | ok operands =>
                rw [hflatten] at hfound
                cases hfound
                rfl
  · intro h
    obtain ⟨phrases, hitems, hfits, hdepth, hflatten⟩ := h
    have htree : Tree.parse source = .ok ⟨phrases.terms⟩ :=
      ofLexemes_eq_ok_iff.2 ⟨phrases, hitems, hfits, hdepth, rfl⟩
    simp [parse, htree, resolve, ofTree_eq, hflatten, Except.map]

/-- A text is read as a shape if its items are, when they are computed. -/
theorem parse_eq_ok_of_items {items : List Lexeme} (hitems : Lexeme.ofText source = items)
    (h : ((Tree.ofLexemes source.utf8ByteSize items).toOption.bind
      fun tree => (resolve options tree).toOption) = some shape) :
    parse options source = .ok shape := by
  rw [parse, Tree.parse, hitems]
  cases htree : Tree.ofLexemes source.utf8ByteSize items with
  | error error => simp [htree, Except.toOption] at h
  | ok tree =>
      cases hshape : resolve options tree with
      | error error => simp [htree, hshape, Except.toOption] at h
      | ok found =>
          simp only [htree, hshape, Except.toOption, Option.bind_some, Option.some.injEq] at h
          simp [hshape, h]

/-- A shape that is read has an operand, and its parts are writable and pass the checks. -/
theorem writable_of_parse (h : parse options source = .ok shape) :
    shape.operands ≠ [] ∧ ∀ part ∈ shape.parts, part.Writable ∧ part.Passes options := by
  obtain ⟨phrases, hitems, -, -, hflatten⟩ := parse_eq_ok_iff.1 h
  obtain ⟨hrelaxed, hpasses⟩ :=
    (flattenAll_ok_iff (Operand.passes_ofName options) _ _).1 hflatten
  have hproper : ∀ item ∈ phrases.lexemes, item.Proper :=
    fun item hitem => Lexeme.proper_of_mem_ofText (hitems ▸ hitem)
  obtain ⟨hne, hwritable⟩ := writable_of_flattenAll phrases hproper shape.operands hrelaxed
  exact ⟨hne, fun part hpart => ⟨hwritable part hpart, hpasses part hpart⟩⟩

end Shape

end ArrayShape
