import ArrayShape.Proofs.Grammar
import ArrayShape.Tree.Parts

/-!
# The parts of a derivation

What a term consists of stands among the items from which it is derived: its labels and numbers are
tokens among them, and the terms inside it are derived from runs of them. Items that are moved to
other places derive the term that is moved to these places.
-/

namespace ArrayShape.Grammar

/-! ## Labels and numbers -/

/-- Each label of fields stands among their items. -/
theorem FieldList.exists_label (fields : FieldList) :
    ∀ label ∈ fields.terms.map Prod.fst, ∃ token : Token,
      .token token label.range ∈ fields.lexemes ∧ token.text = label.value := by
  have hfirst (label : Spanned Label) : label.value.token.text = label.value.text := by
    cases label.value <;> rfl
  cases fields with
  | last label equals type =>
      intro found hfound
      cases List.mem_singleton.1 hfound
      exact ⟨label.value.token, List.mem_cons_self, hfirst label⟩
  | more label equals type comma rest =>
      intro found hfound
      rcases List.mem_cons.1 hfound with rfl | hfound
      · exact ⟨label.value.token, List.mem_cons_self, hfirst label⟩
      · obtain ⟨token, htoken, htext⟩ := rest.exists_label found hfound
        exact ⟨token, List.mem_append_right _ (List.mem_cons_of_mem _ htoken), htext⟩

/-- Each word of numerals stands among their items. -/
theorem NumeralList.exists_numeral (values : NumeralList) :
    ∀ number ∈ values.words, ∃ digits, number = word digits ∧ numeral digits ∈ values.lexemes := by
  induction values with
  | last digits =>
      intro number hnumber
      cases List.mem_singleton.1 hnumber
      exact ⟨digits, rfl, List.mem_cons_self⟩
  | more digits comma rest ih =>
      intro number hnumber
      rcases List.mem_cons.1 hnumber with rfl | hnumber
      · exact ⟨digits, rfl, List.mem_cons_self⟩
      · obtain ⟨others, hword, hmem⟩ := ih number hnumber
        exact ⟨others, hword, List.mem_cons_of_mem _ (List.mem_cons_of_mem _ hmem)⟩

/-- Each label of the term of an operand stands among its items. -/
theorem Phrase.exists_label (phrase : Phrase) :
    ∀ label ∈ phrase.term.labels, ∃ token : Token,
      .token token label.range ∈ phrase.lexemes ∧ token.text = label.value := by
  intro label hlabel
  cases phrase with
  | record call fields closing =>
      obtain ⟨token, htoken, htext⟩ := fields.exists_label label hlabel
      exact ⟨token, by simp [Phrase.lexemes, wrap, htoken], htext⟩
  | number | name | enum | var | group => cases hlabel

/-- Each number of the term of an operand stands among its items. -/
theorem Phrase.exists_numeral (phrase : Phrase) :
    ∀ number ∈ phrase.term.numbers,
      ∃ digits, number = word digits ∧ numeral digits ∈ phrase.lexemes := by
  intro number hnumber
  cases phrase with
  | number digits =>
      cases List.mem_singleton.1 hnumber
      exact ⟨digits, rfl, List.mem_cons_self⟩
  | enum call values closing =>
      obtain ⟨digits, hword, hmem⟩ := values.exists_numeral number hnumber
      exact ⟨digits, hword, by simp [Phrase.lexemes, wrap, hmem]⟩
  | var call lower comma upper closing =>
      simp only [Phrase.term, Term.numbers, List.mem_cons, List.not_mem_nil, or_false] at hnumber
      rcases hnumber with rfl | rfl
      · exact ⟨lower, rfl, by simp [Phrase.lexemes, wrap]⟩
      · exact ⟨upper, rfl, by simp [Phrase.lexemes, wrap]⟩
  | name | record | group => cases hnumber

/-! ## The parts of a derivation -/

mutual
/-- Every part of the term of an operand is the term of an operand inside it. -/
theorem Phrase.exists_part (phrase : Phrase) :
    ∀ term ∈ phrase.term.parts, ∃ part : Phrase, part.term = term ∧
      part.lexemes <:+: phrase.lexemes ∧ part.depth ≤ phrase.depth := by
  intro term hterm
  cases phrase with
  | record call fields closing =>
      rcases List.mem_cons.1 hterm with rfl | hterm
      · exact ⟨.record call fields closing, rfl, List.infix_refl _, Nat.le_refl _⟩
      · obtain ⟨part, hpart, hwithin, hdepth⟩ := fields.exists_part term hterm
        refine ⟨part, hpart, hwithin.trans ?_, Nat.le_succ_of_le hdepth⟩
        exact ⟨[.token (.keyword .record) call.keyword, .token .openParen call.opening],
          [.token .closeParen closing], rfl⟩
  | group opening members closing =>
      rcases List.mem_cons.1 hterm with rfl | hterm
      · exact ⟨.group opening members closing, rfl, List.infix_refl _, Nat.le_refl _⟩
      · obtain ⟨part, hpart, hwithin, hdepth⟩ := members.exists_part term hterm
        refine ⟨part, hpart, hwithin.trans ?_, hdepth⟩
        exact ⟨[.token .openParen opening], [.token .closeParen closing], rfl⟩
  | number | name | enum | var =>
      cases List.mem_singleton.1 hterm
      exact ⟨_, rfl, List.infix_refl _, Nat.le_refl _⟩

/-- Every part of the terms of a list of operands is the term of an operand inside the list. -/
theorem PhraseList.exists_part (phrases : PhraseList) :
    ∀ term ∈ Term.membersParts phrases.terms, ∃ part : Phrase, part.term = term ∧
      part.lexemes <:+: phrases.lexemes ∧ part.depth ≤ phrases.depth := by
  intro term hterm
  cases phrases with
  | last operand =>
      simp only [PhraseList.terms, Term.membersParts, List.append_nil] at hterm
      exact operand.exists_part term hterm
  | more operand comma rest =>
      simp only [PhraseList.terms, Term.membersParts, List.mem_append] at hterm
      rcases hterm with hterm | hterm
      · obtain ⟨part, hpart, hwithin, hdepth⟩ := operand.exists_part term hterm
        exact ⟨part, hpart, hwithin.trans (List.prefix_append _ _).isInfix,
          Nat.le_trans hdepth (Nat.le_max_left _ _)⟩
      · obtain ⟨part, hpart, hwithin, hdepth⟩ := rest.exists_part term hterm
        refine ⟨part, hpart, hwithin.trans ?_, Nat.le_trans hdepth (Nat.le_max_right _ _)⟩
        exact ((List.suffix_cons _ _).trans (List.suffix_append _ _)).isInfix

/-- Every part of the types of fields is the term of an operand inside the fields. -/
theorem FieldList.exists_part (fields : FieldList) :
    ∀ term ∈ Term.fieldsParts fields.terms, ∃ part : Phrase, part.term = term ∧
      part.lexemes <:+: fields.lexemes ∧ part.depth ≤ fields.depth := by
  intro term hterm
  cases fields with
  | last label equals type =>
      simp only [FieldList.terms, Term.fieldsParts, List.append_nil] at hterm
      obtain ⟨part, hpart, hwithin, hdepth⟩ := type.exists_part term hterm
      refine ⟨part, hpart, hwithin.trans ?_, hdepth⟩
      exact ((List.suffix_cons _ _).trans (List.suffix_cons _ _)).isInfix
  | more label equals type comma rest =>
      simp only [FieldList.terms, Term.fieldsParts, List.mem_append] at hterm
      rcases hterm with hterm | hterm
      · obtain ⟨part, hpart, hwithin, hdepth⟩ := type.exists_part term hterm
        refine ⟨part, hpart, hwithin.trans ?_, Nat.le_trans hdepth (Nat.le_max_left _ _)⟩
        exact (((List.suffix_cons _ _).trans (List.suffix_cons _ _)).isInfix).trans
          (List.prefix_append _ _).isInfix
      · obtain ⟨part, hpart, hwithin, hdepth⟩ := rest.exists_part term hterm
        refine ⟨part, hpart, hwithin.trans ?_, Nat.le_trans hdepth (Nat.le_max_right _ _)⟩
        exact ((List.suffix_cons _ _).trans (List.suffix_append _ _)).isInfix
end

/-! ## Derivations at other places -/

section Move

variable {place : Nat → Nat}

@[simp] theorem move_numeral (digits : Spanned String) :
    (numeral digits).move place = numeral (digits.move place) := rfl

/-- Items fit wherever they stand. -/
@[simp] theorem fits_move {item : Lexeme} : (item.move place).Fits ↔ item.Fits := by
  cases item with
  | token found range => cases found <;> rfl
  | stray range => rfl

/-- The items of numerals at other places are numerals with the words at other places. -/
theorem NumeralList.exists_move (place : Nat → Nat) (values : NumeralList) :
    ∃ moved : NumeralList, moved.lexemes = values.lexemes.map (Lexeme.move place) ∧
      moved.words = values.words.map (Spanned.move place) := by
  induction values with
  | last digits => exact ⟨.last (digits.move place), rfl, rfl⟩
  | more digits comma rest ih =>
      obtain ⟨moved, hlexemes, hwords⟩ := ih
      refine ⟨.more (digits.move place) (comma.move place) moved, ?_, ?_⟩
      · simp only [lexemes, hlexemes, List.map_cons, move_numeral, Lexeme.move_token]
      · simp only [words, hwords, List.map_cons]
        rfl

mutual
/-- The items of an operand at other places are an operand with the term at other places. -/
theorem Phrase.exists_move (hplace : ByteRange.KeepsOrder place) (phrase : Phrase) :
    ∃ moved : Phrase, moved.lexemes = phrase.lexemes.map (Lexeme.move place) ∧
      moved.term = phrase.term.move place ∧ moved.depth = phrase.depth := by
  cases phrase with
  | number digits => exact ⟨.number (digits.move place), rfl, rfl, rfl⟩
  | name text => exact ⟨.name (text.move place), rfl, rfl, rfl⟩
  | record call fields closing =>
      obtain ⟨moved, hlexemes, hterms, hdepth⟩ := fields.exists_move hplace
      -- The range of the term is merged from two others, which needs the order of the places.
      refine ⟨.record ⟨call.keyword.move place, call.opening.move place⟩ moved
        (closing.move place), ?_, ?_, ?_⟩
      · simp [Phrase.lexemes, wrap, hlexemes]
      · simp [Phrase.term, Term.move, hterms, ByteRange.move_merge hplace]
      · simp [Phrase.depth, hdepth]
  | enum call values closing =>
      obtain ⟨moved, hlexemes, hwords⟩ := values.exists_move place
      refine ⟨.enum ⟨call.keyword.move place, call.opening.move place⟩ moved
        (closing.move place), ?_, ?_, rfl⟩
      · simp [Phrase.lexemes, wrap, hlexemes]
      · simp [Phrase.term, Term.move, hwords, ByteRange.move_merge hplace]
  | var call lower comma upper closing =>
      refine ⟨.var ⟨call.keyword.move place, call.opening.move place⟩ (lower.move place)
        (comma.move place) (upper.move place) (closing.move place), ?_, ?_, rfl⟩
      · simp [Phrase.lexemes, wrap]
      · simp [Phrase.term, Term.move, ByteRange.move_merge hplace]
        exact ⟨rfl, rfl⟩
  | group opening members closing =>
      obtain ⟨moved, hlexemes, hterms, hdepth⟩ := members.exists_move hplace
      refine ⟨.group (opening.move place) moved (closing.move place), ?_, ?_, ?_⟩
      · simp [Phrase.lexemes, hlexemes]
      · simp [Phrase.term, Term.move, hterms, ByteRange.move_merge hplace]
      · simp [Phrase.depth, hdepth]

/-- The items of a list of operands at other places are a list of operands with the terms at other
places. -/
theorem PhraseList.exists_move (hplace : ByteRange.KeepsOrder place) (phrases : PhraseList) :
    ∃ moved : PhraseList, moved.lexemes = phrases.lexemes.map (Lexeme.move place) ∧
      moved.terms = Term.moveAll place phrases.terms ∧ moved.depth = phrases.depth := by
  cases phrases with
  | last operand =>
      obtain ⟨moved, hlexemes, hterm, hdepth⟩ := operand.exists_move hplace
      exact ⟨.last moved, hlexemes, by simp [PhraseList.terms, Term.moveAll, hterm], hdepth⟩
  | more operand comma rest =>
      obtain ⟨moved, hlexemes, hterm, hdepth⟩ := operand.exists_move hplace
      obtain ⟨others, hrest, hterms, hothers⟩ := rest.exists_move hplace
      refine ⟨.more moved (comma.move place) others, ?_, ?_, ?_⟩
      · simp [PhraseList.lexemes, hlexemes, hrest]
      · simp [PhraseList.terms, Term.moveAll, hterm, hterms]
      · simp [PhraseList.depth, hdepth, hothers]

/-- The items of fields at other places are fields with the labels and types at other places. -/
theorem FieldList.exists_move (hplace : ByteRange.KeepsOrder place) (fields : FieldList) :
    ∃ moved : FieldList, moved.lexemes = fields.lexemes.map (Lexeme.move place) ∧
      moved.terms = Term.moveFields place fields.terms ∧ moved.depth = fields.depth := by
  cases fields with
  | last label equals type =>
      obtain ⟨moved, hlexemes, hterm, hdepth⟩ := type.exists_move hplace
      refine ⟨.last (label.move place) (equals.move place) moved, ?_, ?_, hdepth⟩
      · simp [FieldList.lexemes, labelled, hlexemes, Spanned.move]
      · simp [FieldList.terms, Term.moveFields, hterm, Spanned.move]
  | more label equals type comma rest =>
      obtain ⟨moved, hlexemes, hterm, hdepth⟩ := type.exists_move hplace
      obtain ⟨others, hrest, hterms, hothers⟩ := rest.exists_move hplace
      refine ⟨.more (label.move place) (equals.move place) moved (comma.move place) others,
        ?_, ?_, ?_⟩
      · simp [FieldList.lexemes, labelled, hlexemes, hrest, Spanned.move]
      · simp [FieldList.terms, Term.moveFields, hterm, hterms, Spanned.move]
      · simp [FieldList.depth, hdepth, hothers]
end

end Move

end ArrayShape.Grammar
