import ArrayShape.Proofs.Derivations
import ArrayShape.Proofs.Description
import ArrayShape.Proofs.LongestMatch
import ArrayShape.Proofs.Relocation

/-!
# Texts that are joined

Behind a text that describes a shape and a comma, reading goes on as it begins
(`Shape.parse_joined`). The comma ends the last token of the first text, so that the items of the
joined text are those of both texts with the comma between them (`Lexeme.ofText_joined`). Over the
first of them the automaton comes back to its first state, with the terms that it has read kept
below (`Grammar.run_phraseList_comma`), and what is read behind it is only moved
(`Tree.ofLexemes_of_run`).
-/

namespace ArrayShape

/-! ## Items of joined texts -/

namespace Lexer

open Text

variable {offset : Nat} {chars rest : List Char} {items others : List Lexeme}

/-- Delimited characters behind others leave the items of the others as they are. -/
theorem Scan.append (h : Scan offset chars items) (hrest : Delimited rest)
    (hothers : Scan (offset + byteLength chars) rest others) :
    Scan offset (chars ++ rest) (items ++ others) := by
  induction h with
  | done => exact hothers
  | blank hblank _ ih =>
      rw [byteLength_cons, ← Nat.add_assoc] at hothers
      exact .blank hblank (ih hothers)
  | item htakes _ ih =>
      rw [byteLength_append, ← Nat.add_assoc] at hothers
      rw [List.append_assoc]
      exact .item (htakes.append hrest) (ih hothers)

/-- A mark is an item alone, whatever follows it. -/
theorem Scan.mark {c : Char} {token : Token} (h : mark? c = some token)
    (hrest : Scan (offset + 1) rest items) :
    Scan offset (c :: rest) (.token token ⟨offset, offset + 1⟩ :: items) := by
  obtain ⟨hproper, htext, hlength, hends⟩ : token.Proper ∧ token.text.toList = [c] ∧
      byteLength [c] = 1 ∧ ∀ d, token.extendedBy d = false := by
    unfold mark? at h
    split at h <;> cases h <;> exact ⟨trivial, rfl, rfl, fun _ => rfl⟩
  have htakes : (Lexeme.token token ⟨offset, offset + byteLength token.text.toList⟩).Takes offset
      rest token.text.toList := .token hproper fun d _ => hends d
  rw [htext, hlength] at htakes
  exact .item htakes (hlength.symm ▸ hrest)

end Lexer

namespace Lexeme

open Lexer Text

/-- The items of a text stand further behind when other characters are put in front of it. -/
theorem scan_behind (source : String) (length : Nat) :
    Scan length source.toList ((ofText source).map (move (· + length))) :=
  (scan_ofText source).move fun taken => by omega

/-- The items of two texts with a comma between them. -/
theorem ofText_joined (first second : String) :
    ofText (first ++ "," ++ second) =
      ofText first ++ .token .comma ⟨first.utf8ByteSize, first.utf8ByteSize + 1⟩ ::
        (ofText second).map (move (· + (first.utf8ByteSize + 1))) := by
  have hbehind := scan_behind second (first.utf8ByteSize + 1)
  have hcomma := Scan.mark (c := ',') rfl hbehind
  rw [← byteLength_toList, ← Nat.zero_add (byteLength first.toList)] at hcomma
  have hscan := (scan_ofText first).append (by simp [isWordChar]) hcomma
  rw [Nat.zero_add, byteLength_toList] at hscan
  rw [ofText, String.toList_append, String.toList_append, List.append_assoc]
  exact (scan_iff.1 hscan).symm

/-- The items of a text in parentheses. -/
theorem ofText_parenthesized (source : String) :
    ofText ("(" ++ source ++ ")") =
      .token .openParen ⟨0, 1⟩ :: ((ofText source).map (move (· + 1)) ++
        [.token .closeParen ⟨1 + source.utf8ByteSize, 1 + source.utf8ByteSize + 1⟩]) := by
  have hclose : Scan (1 + byteLength source.toList) [')']
      [.token .closeParen ⟨1 + byteLength source.toList, 1 + byteLength source.toList + 1⟩] :=
    .mark rfl .done
  have hscan : Scan 0 ('(' :: (source.toList ++ [')'])) _ :=
    .mark rfl ((scan_behind source 1).append (by simp [isWordChar]) hclose)
  rw [byteLength_toList] at hscan
  rw [ofText, String.toList_append, String.toList_append, List.append_assoc]
  exact (scan_iff.1 hscan).symm

end Lexeme

/-! ## Reading joined texts -/

namespace Grammar

open ArrayShape.Parser

variable {depth endPosition : Nat} {place : Nat → Nat} {phrases : PhraseList}

/-- The automaton moves over a list of operands and the comma behind it to where it began, with the
terms of the operands below. -/
theorem run_phraseList_comma (phrases : PhraseList) (base : List (Term String)) (comma : ByteRange)
    (rest : List Lexeme) (hfits : ∀ item ∈ phrases.lexemes, item.Fits)
    (hdepth : depth + phrases.depth ≤ maxRecordDepth) :
    run depth endPosition ⟨base, [], .operand⟩ (phrases.lexemes ++ .token .comma comma :: rest) =
      run depth endPosition ⟨phrases.terms.reverse ++ base, [], .operand⟩ rest := by
  match phrases with
  | .last operand =>
      rw [PhraseList.lexemes, run_phrase operand [] _ hfits hdepth, run_comma]
      rfl
  | .more operand separator tail =>
      obtain ⟨hoperand, htail⟩ := PhraseList.forall_more hfits
      simp only [PhraseList.depth] at hdepth
      rw [PhraseList.lexemes, List.append_assoc, List.cons_append,
        run_phrase operand [] _ hoperand (by simp [openRecords]; omega), run_comma]
      simp only [readComma]
      rw [run_phraseList_comma tail (operand.term :: base) comma rest htail (by omega)]
      simp [PhraseList.terms]

/-- Behind a list of operands and a comma, items are read as they are alone, and their terms stand
behind those of the operands. -/
theorem ofLexemes_joined (hplace : ByteRange.KeepsOrder place) (comma : ByteRange)
    (items : List Lexeme) (hfits : ∀ item ∈ phrases.lexemes, item.Fits)
    (hdepth : phrases.depth ≤ maxRecordDepth) :
    Tree.ofLexemes (place endPosition)
        (phrases.lexemes ++ .token .comma comma :: items.map (Lexeme.move place)) =
      ((Tree.ofLexemes endPosition items).map fun tree =>
        ⟨phrases.terms ++ Term.moveAll place tree.terms⟩).mapError (ParseError.move place) := by
  have hrun : run 0 (place endPosition) .initial
      (phrases.lexemes ++ .token .comma comma :: items.map (Lexeme.move place)) =
      run 0 (place endPosition) ⟨phrases.terms.reverse ++ [], [], .operand⟩
        (items.map (Lexeme.move place)) :=
    run_phraseList_comma phrases [] comma _ hfits (by omega)
  rw [List.append_nil] at hrun
  have htree := Tree.ofLexemes_of_run hplace hrun
  simpa only [moveBehind, List.reverse_reverse, ← Term.moveAll_eq_map] using htree

end Grammar

namespace Shape

open Grammar

variable {options : Options} {first : String} {shape : Shape String}

/-- Behind operands that describe others and a comma, items are read as the shape that they are read
as alone, behind the operands, or with the same error at their place. -/
theorem ofLexemes_joined {place : Nat → Nat} {phrases : PhraseList} {endPosition : Nat}
    {operands : List (Operand String)} (hplace : ByteRange.KeepsOrder place) (comma : ByteRange)
    (items : List Lexeme) (hfits : ∀ item ∈ phrases.lexemes, item.Fits)
    (hdepth : phrases.depth ≤ maxRecordDepth)
    (hflatten : flattenAll options Operand.ofName phrases.terms = .ok operands) :
    ofLexemes options (place endPosition)
        (phrases.lexemes ++ .token .comma comma :: items.map (Lexeme.move place)) =
      ((ofLexemes options endPosition items).map fun other =>
        ⟨operands ++ other.operands⟩).mapError (Error.move place) := by
  unfold ofLexemes
  rw [Grammar.ofLexemes_joined hplace comma items hfits hdepth]
  cases Tree.ofLexemes endPosition items with
  | error error => rfl
  | ok tree =>
      show (resolve options ⟨phrases.terms ++ Term.moveAll place tree.terms⟩).mapError
          Error.invalid = (((resolve options tree).mapError Error.invalid).map _).mapError _
      rw [resolve, resolve, ofTree_eq, ofTree_eq, flattenAll_append, hflatten, flattenAll_move]
      cases flattenAll options Operand.ofName tree.terms <;> rfl

/-- A text in parentheses is read as the shape of the text. -/
theorem parse_parenthesized (h : parse options first = .ok shape) :
    parse options ("(" ++ first ++ ")") = .ok shape := by
  obtain ⟨phrases, hitems, hfits, hdepth, hflatten⟩ := parse_eq_ok_iff.1 h
  have hplace : ByteRange.KeepsOrder (· + 1) := fun _ _ hle => Nat.add_le_add_right hle 1
  obtain ⟨moved, hlexemes, hterms, hmoved⟩ := phrases.exists_move hplace
  have hgroup := Lexeme.ofText_parenthesized first
  rw [← hitems, ← hlexemes] at hgroup
  refine parse_eq_ok_iff.2 ⟨.last (.group _ moved _), hgroup.symm, ?_, ?_, ?_⟩
  · rw [hgroup, hlexemes, List.forall_mem_cons, List.forall_mem_append, List.forall_mem_singleton,
      List.forall_mem_map]
    exact ⟨trivial, fun item hitem => fits_move.2 (hfits item (hitems ▸ hitem)), trivial⟩
  · rw [PhraseList.depth, Phrase.depth, hmoved]
    exact hdepth
  · rw [PhraseList.terms, flattenAll_singleton, Phrase.term, flatten, hterms, flattenAll_move,
      hflatten]
    rfl

/-- A text behind a comma and a text that describes a shape describes the operands of the shape and
then its own. If it is rejected alone, then it is rejected there with the same error, and every
offset in the error is greater by the bytes before it. In parentheses, the first text describes the
same shape. -/
theorem parse_joined (h : parse options first = .ok shape) :
    (∀ second : String, parse options (first ++ "," ++ second) =
      ((parse options second).map fun other => ⟨shape.operands ++ other.operands⟩).mapError
        (Error.move (· + (first.utf8ByteSize + 1)))) ∧
    parse options ("(" ++ first ++ ")") = .ok shape := by
  refine ⟨fun second => ?_, parse_parenthesized h⟩
  obtain ⟨phrases, hitems, hfits, hdepth, hflatten⟩ := parse_eq_ok_iff.1 h
  have hplace : ByteRange.KeepsOrder (· + (first.utf8ByteSize + 1)) :=
    fun _ _ hle => Nat.add_le_add_right hle _
  have hsize : (first ++ "," ++ second).utf8ByteSize =
      second.utf8ByteSize + (first.utf8ByteSize + 1) := by
    rw [String.utf8ByteSize_append, String.utf8ByteSize_append, Nat.add_comm]
    rfl
  rw [← hitems] at hfits
  rw [parse_eq_ofLexemes, parse_eq_ofLexemes, Lexeme.ofText_joined, hsize, ← hitems]
  exact ofLexemes_joined hplace _ (Lexeme.ofText second) hfits hdepth hflatten

/-- Behind two operands and a comma, a record with a repeated label is rejected for its labels, at
their offsets behind the comma. -/
theorem parse_joined_repeatedLabels :
    parse {} "7,N" = .ok ⟨[.integer 7, .typeVar "N"]⟩ ∧
      parse {} " Record(a=1,a=2)" =
        .error (.invalid (.repeatedLabels ⟨1, 16⟩ [⟨⟨12, 13⟩, "a"⟩])) ∧
      parse {} ("7,N" ++ "," ++ " Record(a=1,a=2)") =
        .error (.invalid (.repeatedLabels ⟨5, 20⟩ [⟨⟨16, 17⟩, "a"⟩])) ∧
      parse {} ("(" ++ "7,N" ++ ")") = .ok ⟨[.integer 7, .typeVar "N"]⟩ := by
  have htokens : Lexeme.ofText "7,N" =
      [.token (.number "7") ⟨0, 1⟩, .token .comma ⟨1, 2⟩, .token (.name "N") ⟨2, 3⟩] := by
    decide +kernel
  have hfirst : parse {} "7,N" = .ok ⟨[.integer 7, .typeVar "N"]⟩ :=
    parse_eq_ok_of_items htokens (by decide +kernel)
  have hitems : Lexeme.ofText " Record(a=1,a=2)" =
      [.token (.keyword .record) ⟨1, 7⟩, .token .openParen ⟨7, 8⟩, .token (.name "a") ⟨8, 9⟩,
        .token .equals ⟨9, 10⟩, .token (.number "1") ⟨10, 11⟩, .token .comma ⟨11, 12⟩,
        .token (.name "a") ⟨12, 13⟩, .token .equals ⟨13, 14⟩, .token (.number "2") ⟨14, 15⟩,
        .token .closeParen ⟨15, 16⟩] := by
    decide +kernel
  have htree : Tree.parse " Record(a=1,a=2)" =
      .ok ⟨[.record ⟨1, 16⟩ [(⟨⟨8, 9⟩, "a"⟩, .number ⟨10, 11⟩ 1),
        (⟨⟨12, 13⟩, "a"⟩, .number ⟨14, 15⟩ 2)]]⟩ := by
    rw [Tree.parse, hitems]
    rfl
  have hsecond : parse {} " Record(a=1,a=2)" =
      .error (.invalid (.repeatedLabels ⟨1, 16⟩ [⟨⟨12, 13⟩, "a"⟩])) := by
    rw [parse, htree]
    simp only [resolve, ofTree_eq]
    rfl
  obtain ⟨hjoined, hgroup⟩ := parse_joined hfirst
  refine ⟨hfirst, hsecond, ?_, hgroup⟩
  rw [hjoined, hsecond]
  rfl

end Shape

end ArrayShape
