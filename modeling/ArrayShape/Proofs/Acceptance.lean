import ArrayShape.Proofs.Reading

/-!
# Which texts are read

A text is read exactly when its items are tokens that have a derivation, every numeral fits in a
word, and no record lies inside too many others. For the last condition the automaton stops at the
keyword of the first record that lies too deep, however the records are mixed with groups and
fields (`run_phrase_deep`), so that items that satisfy the other conditions are rejected with no
other error (`ofLexemes_deep`).
-/

namespace ArrayShape

namespace Grammar

open ArrayShape.Parser

variable {depth endPosition : Nat} {base : List (Term String)}

/-- The items are rejected because a record lies inside too many others. -/
def TooDeep (depth endPosition : Nat) (state : State) (items : List Lexeme) : Prop :=
  ∃ range, run depth endPosition state items = .error (.nestingTooDeep range)

mutual
/-- The automaton stops in an operand whose records lie inside too many others. -/
theorem run_phrase_deep (phrase : Phrase) (frames : List Frame) (rest : List Lexeme)
    (hfits : ∀ item ∈ phrase.lexemes, item.Fits)
    (hopen : depth + openRecords frames ≤ maxRecordDepth)
    (hdeep : maxRecordDepth < depth + openRecords frames + phrase.depth) :
    TooDeep depth endPosition ⟨base, frames, .operand⟩ (phrase.lexemes ++ rest) := by
  cases phrase with
  | record call fields closing =>
      have hfields : ∀ item ∈ fields.lexemes, item.Fits := forall_arguments hfits
      simp only [Phrase.depth] at hdeep
      simp only [Phrase.lexemes, wrap, List.cons_append, List.append_assoc, List.nil_append]
      by_cases hroom : depth + openRecords frames < maxRecordDepth
      -- This record may be read, so the one that lies too deep is inside it.
      · rw [TooDeep, run_keyword .record call _ fun _ => hroom]
        exact run_fields_deep fields frames call [] closing rest hfields (by omega) (by omega)
      · have hfull : readOperand depth ⟨base, frames, .operand⟩ (.keyword .record) call.keyword =
            .error (.nestingTooDeep call.keyword) :=
          if_pos ⟨rfl, Nat.le_of_not_lt hroom⟩
        refine ⟨call.keyword, ?_⟩
        simp only [run, step, hfull, Except.map]
  | group opening members closing =>
      have hmembers : ∀ item ∈ members.lexemes, item.Fits := forall_members hfits
      simp only [Phrase.depth] at hdeep
      simp only [Phrase.lexemes, List.cons_append, List.append_assoc, List.nil_append]
      rw [TooDeep, run_openParen]
      exact run_members_deep members frames opening [] _ hmembers hopen hdeep
  | _ =>
      simp only [Phrase.depth] at hdeep
      omega

/-- The automaton stops in a group whose members have records inside too many others. -/
theorem run_members_deep (members : PhraseList) (frames : List Frame) (opening : ByteRange)
    (before : List (Term String)) (rest : List Lexeme)
    (hfits : ∀ item ∈ members.lexemes, item.Fits)
    (hopen : depth + openRecords frames ≤ maxRecordDepth)
    (hdeep : maxRecordDepth < depth + openRecords frames + members.depth) :
    TooDeep depth endPosition ⟨base, .group opening before :: frames, .operand⟩
      (members.lexemes ++ rest) := by
  have hframes : openRecords (.group opening before :: frames) = openRecords frames :=
    openRecords_group opening before
  cases members with
  | last operand =>
      simp only [PhraseList.depth] at hdeep
      exact run_phrase_deep operand _ rest hfits (by omega) (by omega)
  | more operand comma tail =>
      obtain ⟨hoperand, htail⟩ := PhraseList.forall_more hfits
      simp only [PhraseList.depth] at hdeep
      simp only [PhraseList.lexemes, List.append_assoc, List.cons_append]
      -- The first operand that is too deep stops the automaton. Those before it are moved over.
      by_cases hfirst : maxRecordDepth < depth + openRecords frames + operand.depth
      · exact run_phrase_deep operand _ _ hoperand (by omega) (by omega)
      · rw [TooDeep, run_phrase operand _ _ hoperand (by omega), run_comma]
        exact run_members_deep tail frames opening (operand.term :: before) rest htail hopen
          (by omega)

/-- The automaton stops in a record whose fields have records inside too many others. -/
theorem run_fields_deep (fields : FieldList) (frames : List Frame) (call : Call)
    (before : TermFields String) (closing : ByteRange) (rest : List Lexeme)
    (hfits : ∀ item ∈ fields.lexemes, item.Fits)
    (hopen : depth + openRecords frames + 1 ≤ maxRecordDepth)
    (hdeep : maxRecordDepth < depth + openRecords frames + 1 + fields.depth) :
    TooDeep depth endPosition ⟨base, frames, .argument (.label call before)⟩
      (fields.lexemes ++ .token .closeParen closing :: rest) := by
  cases fields with
  | last label equals type =>
      obtain ⟨-, htype⟩ := FieldList.forall_last hfits
      have hframes : openRecords (.field call before ⟨label.range, label.value.text⟩ :: frames) =
          openRecords frames + 1 := openRecords_field call before _
      simp only [FieldList.depth] at hdeep
      show ∃ range, run _ _ _ (labelled label equals (type.lexemes ++ _)) = _
      rw [run_label]
      exact run_phrase_deep type _ _ htype (by omega) (by omega)
  | more label equals type comma tail =>
      obtain ⟨-, htype, htail⟩ := FieldList.forall_more hfits
      have hframes : openRecords (.field call before ⟨label.range, label.value.text⟩ :: frames) =
          openRecords frames + 1 := openRecords_field call before _
      simp only [FieldList.depth] at hdeep
      simp only [FieldList.lexemes, List.append_assoc, List.cons_append]
      show ∃ range, run _ _ _ (labelled label equals (type.lexemes ++ _)) = _
      rw [run_label]
      by_cases hfirst : maxRecordDepth < depth + openRecords frames + 1 + type.depth
      · exact run_phrase_deep type _ _ htype (by omega) (by omega)
      · rw [run_phrase type _ _ htype (by omega), run_comma]
        exact run_fields_deep tail frames call _ closing rest htail hopen (by omega)
end

/-- The automaton stops in a list of operands with records inside too many others. -/
theorem run_phraseList_deep (phrases : PhraseList) (base : List (Term String))
    (hfits : ∀ item ∈ phrases.lexemes, item.Fits) (hopen : depth ≤ maxRecordDepth)
    (hdeep : maxRecordDepth < depth + phrases.depth) :
    TooDeep depth endPosition ⟨base, [], .operand⟩ phrases.lexemes := by
  match phrases with
  | .last operand =>
      have hrun : TooDeep depth endPosition ⟨base, [], .operand⟩ (operand.lexemes ++ []) :=
        run_phrase_deep operand [] [] hfits hopen hdeep
      rwa [List.append_nil] at hrun
  | .more operand comma tail =>
      obtain ⟨hoperand, htail⟩ := PhraseList.forall_more hfits
      have hframes : openRecords [] = 0 := rfl
      simp only [PhraseList.depth] at hdeep
      rw [PhraseList.lexemes]
      by_cases hfirst : maxRecordDepth < depth + operand.depth
      · exact run_phrase_deep operand [] _ hoperand (by omega) (by omega)
      · rw [TooDeep, run_phrase operand [] _ hoperand (by omega), run_comma]
        exact run_phraseList_deep tail (operand.term :: base) htail hopen (by omega)

/-- Items that have a derivation too deep, with numerals that fit, are rejected for their depth. -/
theorem ofLexemes_deep {phrases : PhraseList} (hfits : ∀ item ∈ phrases.lexemes, item.Fits)
    (hdeep : maxRecordDepth < phrases.depth) :
    ∃ range, Tree.ofLexemes endPosition phrases.lexemes = .error (.nestingTooDeep range) := by
  obtain ⟨range, hrun⟩ : TooDeep 0 endPosition .initial phrases.lexemes :=
    run_phraseList_deep phrases [] hfits (Nat.zero_le _) (by omega)
  refine ⟨range, ?_⟩
  rw [Tree.ofLexemes, hrun]

end Grammar

namespace Tree

open Grammar

/-- A text is read exactly when it has no stray character, its tokens are derived in the grammar,
every numeral has a value below `UInt64.size`, and no record of the derivation lies inside
`maxRecordDepth` others. The terms that are read are those of the derivation, which is the only
one. -/
theorem parse_iff_derivation (source : String) :
    ((∃ tree, Tree.parse source = .ok tree) ↔
      (∀ range, .stray range ∉ Lexeme.ofText source) ∧
        (∃ derivation : PhraseList, derivation.lexemes = Lexeme.ofText source ∧
          derivation.depth ≤ maxRecordDepth) ∧
        ∀ digits range, .token (.number digits) range ∈ Lexeme.ofText source →
          Decimal.value digits < UInt64.size) ∧
      ∀ tree, Tree.parse source = .ok tree →
        ∃ derivation : PhraseList, derivation.lexemes = Lexeme.ofText source ∧
          tree.terms = derivation.terms ∧
            ∀ other : PhraseList, other.lexemes = Lexeme.ofText source → other = derivation := by
  refine ⟨⟨?_, ?_⟩, ?_⟩
  · intro h
    obtain ⟨tree, htree⟩ := h
    obtain ⟨derivation, hitems, hfits, hdepth, -⟩ := ofLexemes_eq_ok_iff.1 htree
    refine ⟨fun range hstray => ?_, ⟨derivation, hitems, hdepth⟩, fun digits range hnumber => ?_⟩
    · exact derivation.stray_not_mem range (hitems ▸ hstray)
    · exact hfits _ hnumber
  · intro h
    obtain ⟨-, ⟨derivation, hitems, hdepth⟩, hnumbers⟩ := h
    refine ⟨⟨derivation.terms⟩, ofLexemes_eq_ok_iff.2 ⟨derivation, hitems, ?_, hdepth, rfl⟩⟩
    intro item hitem
    cases item with
    | token token range =>
        rw [Lexeme.fits_token]
        intro digits hdigits
        subst hdigits
        exact hnumbers digits range hitem
    | stray range => trivial
  · intro tree htree
    obtain ⟨derivation, hitems, -, -, hterms⟩ := ofLexemes_eq_ok_iff.1 htree
    exact ⟨derivation, hitems, hterms,
      fun other hother => PhraseList.lexemes_injective (hother.trans hitems.symm)⟩

end Tree

end ArrayShape
