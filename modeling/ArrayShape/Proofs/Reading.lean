import ArrayShape.Proofs.Grammar

/-!
# The reader follows the grammar

The automaton of `ArrayShape.Tree.Parser` accepts exactly the items that have a derivation in which
every numeral fits in a word and no record lies inside too many others. `run_phrase` says that it
moves over the items of an operand as a whole, whatever frames are open and whatever follows;
`exists_phrase` says that a run that succeeds from a place where an operand is awaited began with
the items of an operand. Both are assembled from one lemma for each place where the automaton
stops to choose. `ofLexemes_eq_ok_iff` joins the two directions.
-/

namespace ArrayShape.Grammar

open ArrayShape.Parser

variable {depth endPosition : Nat} {base : List (Term String)} {frames : List Frame}

/-- The number of records among open frames. -/
def openRecords (frames : List Frame) : Nat :=
  frames.countP Frame.isRecord

@[simp] theorem openRecords_group (opening : ByteRange) (before : List (Term String)) :
    openRecords (.group opening before :: frames) = openRecords frames :=
  List.countP_cons_of_neg Bool.false_ne_true

@[simp] theorem openRecords_field (call : Call) (before : TermFields String)
    (label : Spanned String) :
    openRecords (.field call before label :: frames) = openRecords frames + 1 :=
  List.countP_cons_of_pos rfl

/-- A numeral that fits reads as its word. -/
theorem integer_eq_word {digits : Spanned String} (h : (numeral digits).Fits) :
    integer digits.range digits.value = .ok (word digits) := by
  have hvalue : Decimal.value digits.value < UInt64.size := h
  have hread : Decimal.read? digits.value = some (.ofNat (Decimal.value digits.value)) :=
    Decimal.read?_eq_some_iff.2 (UInt64.toNat_ofNat_of_lt' hvalue).symm
  simp [integer, hread, word]

/-- A numeral that reads as a word fits, and the word is its own. -/
theorem fits_of_integer {range : ByteRange} {digits : String} {value : Spanned UInt64}
    (h : integer range digits = .ok value) :
    (numeral ⟨range, digits⟩).Fits ∧ value = word ⟨range, digits⟩ := by
  by_cases hfits : (numeral ⟨range, digits⟩).Fits
  · have hword := integer_eq_word hfits
    simp only [h, Except.ok.injEq] at hword
    exact ⟨hfits, hword⟩
  · have hnone := Decimal.read?_eq_none_iff.2 (Nat.le_of_not_lt hfits)
    simp [integer, hnone] at h

/-! ## Moving over the items of a derivation -/

/-- A numeral that fits is a complete operand. -/
theorem run_numeral {digits : Spanned String} (rest : List Lexeme) (h : (numeral digits).Fits) :
    run depth endPosition ⟨base, frames, .operand⟩ (numeral digits :: rest) =
      run depth endPosition ⟨base, frames, .complete (Phrase.number digits).term⟩ rest := by
  have hword := integer_eq_word h
  simp only [numeral, run, step, readOperand, hword, Except.map]
  rfl

/-- A name is a complete operand. -/
theorem run_name (text : Spanned String) (rest : List Lexeme) :
    run depth endPosition ⟨base, frames, .operand⟩ (.token (.name text.value) text.range :: rest) =
      run depth endPosition ⟨base, frames, .complete (Phrase.name text).term⟩ rest := rfl

/-- A keyword and its parenthesis lead to the first argument, unless too many records are
open. -/
theorem run_keyword (reserved : Keyword) (call : Call) (rest : List Lexeme)
    (h : reserved = .record → depth + openRecords frames < maxRecordDepth) :
    run depth endPosition ⟨base, frames, .operand⟩
        (.token (.keyword reserved) call.keyword :: .token .openParen call.opening :: rest) =
      run depth endPosition ⟨base, frames, .argument (firstArgument call reserved)⟩ rest := by
  have hdepth : ¬ (reserved = .record ∧ maxRecordDepth ≤ depth + openRecords frames) := by
    intro h
    obtain ⟨hrecord, hle⟩ := h
    exact absurd (h hrecord) (Nat.not_lt.2 hle)
  have hstep : readOperand depth ⟨base, frames, .operand⟩ (.keyword reserved) call.keyword =
      .ok ⟨base, frames, .argument (.opening reserved call.keyword)⟩ :=
    if_neg hdepth
  simp only [run, step, hstep, Except.map]
  rfl

/-- A parenthesis where an operand is awaited opens a group. -/
theorem run_openParen (opening : ByteRange) (rest : List Lexeme) :
    run depth endPosition ⟨base, frames, .operand⟩ (.token .openParen opening :: rest) =
      run depth endPosition ⟨base, .group opening [] :: frames, .operand⟩ rest := rfl

/-- A label and its equals sign lead to the type of the field. -/
theorem run_label (call : Call) (before : TermFields String) (label : Spanned Label)
    (equals : ByteRange) (rest : List Lexeme) :
    run depth endPosition ⟨base, frames, .argument (.label call before)⟩
        (labelled label equals rest) =
      run depth endPosition
        ⟨base, .field call before ⟨label.range, label.value.text⟩ :: frames, .operand⟩ rest := by
  obtain ⟨range, label⟩ := label
  cases label <;> rfl

/-- A comma behind a complete operand. -/
theorem run_comma (term : Term String) (comma : ByteRange) (rest : List Lexeme) :
    run depth endPosition ⟨base, frames, .complete term⟩ (.token .comma comma :: rest) =
      run depth endPosition (readComma ⟨base, frames, .complete term⟩ term) rest := rfl

/-- A closing parenthesis behind a complete operand closes the innermost frame. -/
theorem run_closeParen (frame : Frame) (term : Term String) (closing : ByteRange)
    (rest : List Lexeme) :
    run depth endPosition ⟨base, frame :: frames, .complete term⟩
        (.token .closeParen closing :: rest) =
      run depth endPosition ⟨base, frames, .complete (frame.close term closing)⟩ rest := rfl

/-- The values of an enumeration, up to its closing parenthesis. -/
theorem run_values (call : Call) (before : List (Spanned UInt64)) (values : NumeralList)
    (closing : ByteRange) (rest : List Lexeme) (hfits : ∀ item ∈ values.lexemes, item.Fits) :
    run depth endPosition ⟨base, frames, .argument (.enumValue call before)⟩
        (values.lexemes ++ .token .closeParen closing :: rest) =
      run depth endPosition ⟨base, frames,
        .complete (.enum (call.keyword.merge closing) (before.reverse ++ values.words))⟩ rest := by
  induction values generalizing before with
  | last digits =>
      have hword := integer_eq_word (hfits (numeral digits) (by simp [NumeralList.lexemes]))
      simp only [NumeralList.lexemes, numeral, List.cons_append, List.nil_append, run, step,
        readArgument, hword, Except.map, NumeralList.words, List.reverse_cons]
  | more digits comma tail ih =>
      obtain ⟨hdigits, htail⟩ := NumeralList.forall_more hfits
      have hword := integer_eq_word hdigits
      simp only [NumeralList.lexemes, numeral, List.cons_append, run, step, readArgument, hword,
        Except.map]
      rw [ih (word digits :: before) htail]
      simp [NumeralList.words]

/-- The bounds of a range, up to its closing parenthesis. -/
theorem run_bounds (call : Call) (lower upper : Spanned String) (comma closing : ByteRange)
    (rest : List Lexeme) (hlower : (numeral lower).Fits) (hupper : (numeral upper).Fits) :
    run depth endPosition ⟨base, frames, .argument (.lower call)⟩
        (numeral lower :: .token .comma comma :: numeral upper ::
          .token .closeParen closing :: rest) =
      run depth endPosition ⟨base, frames,
        .complete (.var (call.keyword.merge closing) (word lower) (word upper))⟩ rest := by
  simp only [numeral, run, step, readArgument, integer_eq_word hlower, integer_eq_word hupper,
    Except.map]

mutual
/-- The automaton moves over the items of an operand as a whole. -/
theorem run_phrase (phrase : Phrase) (frames : List Frame) (rest : List Lexeme)
    (hfits : ∀ item ∈ phrase.lexemes, item.Fits)
    (hdepth : depth + openRecords frames + phrase.depth ≤ maxRecordDepth) :
    run depth endPosition ⟨base, frames, .operand⟩ (phrase.lexemes ++ rest) =
      run depth endPosition ⟨base, frames, .complete phrase.term⟩ rest := by
  cases phrase with
  | number digits =>
      exact run_numeral rest (hfits (numeral digits) (by simp [Phrase.lexemes]))
  | name text => exact run_name text rest
  | record call fields closing =>
      have hfields : ∀ item ∈ fields.lexemes, item.Fits := forall_arguments hfits
      simp only [Phrase.depth] at hdepth
      simp only [Phrase.lexemes, wrap, List.cons_append, List.append_assoc, List.nil_append]
      rw [run_keyword .record call _ (fun _ => by omega)]
      exact run_fields fields frames call [] closing rest hfields (by omega)
  | enum call values closing =>
      have hvalues : ∀ item ∈ values.lexemes, item.Fits := forall_arguments hfits
      simp only [Phrase.lexemes, wrap, List.cons_append, List.append_assoc, List.nil_append]
      rw [run_keyword .enum call _ nofun]
      exact run_values call [] values closing rest hvalues
  | var call lower comma upper closing =>
      obtain ⟨hlower, hupper⟩ := forall_bounds hfits
      simp only [Phrase.lexemes, wrap, List.cons_append, List.nil_append]
      rw [run_keyword .var call _ nofun]
      exact run_bounds call lower upper comma closing rest hlower hupper
  | group opening members closing =>
      have hmembers : ∀ item ∈ members.lexemes, item.Fits := forall_members hfits
      simp only [Phrase.depth] at hdepth
      simp only [Phrase.lexemes, List.cons_append, List.append_assoc, List.nil_append]
      rw [run_openParen]
      exact run_members members frames opening [] closing rest hmembers hdepth

/-- The automaton moves over the members of a group, up to its closing parenthesis. -/
theorem run_members (members : PhraseList) (frames : List Frame) (opening : ByteRange)
    (before : List (Term String)) (closing : ByteRange) (rest : List Lexeme)
    (hfits : ∀ item ∈ members.lexemes, item.Fits)
    (hdepth : depth + openRecords frames + members.depth ≤ maxRecordDepth) :
    run depth endPosition ⟨base, .group opening before :: frames, .operand⟩
        (members.lexemes ++ .token .closeParen closing :: rest) =
      run depth endPosition ⟨base, frames,
        .complete (.group (opening.merge closing) (before.reverse ++ members.terms))⟩ rest := by
  cases members with
  | last operand =>
      simp only [PhraseList.depth] at hdepth
      rw [PhraseList.lexemes, run_phrase operand _ _ hfits (by simpa using hdepth),
        run_closeParen]
      simp [Frame.close, PhraseList.terms]
  | more operand comma tail =>
      obtain ⟨hoperand, htail⟩ := PhraseList.forall_more hfits
      simp only [PhraseList.depth] at hdepth
      simp only [PhraseList.lexemes, List.append_assoc, List.cons_append]
      rw [run_phrase operand _ _ hoperand (by rw [openRecords_group]; omega), run_comma]
      simp only [readComma]
      rw [run_members tail frames opening (operand.term :: before) closing rest htail (by omega)]
      simp [PhraseList.terms]

/-- The automaton moves over the fields of a record, up to its closing parenthesis. -/
theorem run_fields (fields : FieldList) (frames : List Frame) (call : Call)
    (before : TermFields String) (closing : ByteRange) (rest : List Lexeme)
    (hfits : ∀ item ∈ fields.lexemes, item.Fits)
    (hdepth : depth + openRecords frames + 1 + fields.depth ≤ maxRecordDepth) :
    run depth endPosition ⟨base, frames, .argument (.label call before)⟩
        (fields.lexemes ++ .token .closeParen closing :: rest) =
      run depth endPosition ⟨base, frames,
        .complete (.record (call.keyword.merge closing) (before.reverse ++ fields.terms))⟩
        rest := by
  cases fields with
  | last label equals type =>
      obtain ⟨-, htype⟩ := FieldList.forall_last hfits
      simp only [FieldList.depth] at hdepth
      show run _ _ _ (labelled label equals (type.lexemes ++ _)) = _
      rw [run_label, run_phrase type _ _ htype (by rw [openRecords_field]; omega), run_closeParen]
      simp [Frame.close, FieldList.terms]
  | more label equals type comma tail =>
      obtain ⟨-, htype, htail⟩ := FieldList.forall_more hfits
      simp only [FieldList.depth] at hdepth
      simp only [FieldList.lexemes, List.append_assoc, List.cons_append]
      show run _ _ _ (labelled label equals (type.lexemes ++ _)) = _
      rw [run_label, run_phrase type _ _ htype (by rw [openRecords_field]; omega), run_comma]
      simp only [readComma]
      rw [run_fields tail frames call _ closing rest htail (by omega)]
      simp [FieldList.terms]
end

/-- The automaton moves over a whole list of operands outside all frames. -/
theorem run_phraseList (phrases : PhraseList) (base : List (Term String))
    (hfits : ∀ item ∈ phrases.lexemes, item.Fits)
    (hdepth : depth + phrases.depth ≤ maxRecordDepth) :
    run depth endPosition ⟨base, [], .operand⟩ phrases.lexemes =
      .ok (base.reverse ++ phrases.terms, []) := by
  match phrases with
  | .last operand =>
      have hrun : run depth endPosition ⟨base, [], .operand⟩ (operand.lexemes ++ []) =
          run depth endPosition ⟨base, [], .complete operand.term⟩ [] :=
        run_phrase operand [] [] hfits hdepth
      rw [List.append_nil] at hrun
      rw [PhraseList.lexemes, hrun]
      simp [run, finish, Except.map, PhraseList.terms]
  | .more operand comma tail =>
      obtain ⟨hoperand, htail⟩ := PhraseList.forall_more hfits
      simp only [PhraseList.depth] at hdepth
      rw [PhraseList.lexemes, run_phrase operand [] _ hoperand (by simp [openRecords]; omega),
        run_comma]
      simp only [readComma]
      rw [run_phraseList tail (operand.term :: base) htail (by omega)]
      simp [PhraseList.terms]

/-! ## What a successful run has moved over -/

section Success

variable {items : List Lexeme} {result : List (Term String) × List Lexeme}

/-- Where an operand is awaited, a successful run reads a token. -/
theorem run_operand_ok (h : run depth endPosition ⟨base, frames, .operand⟩ items = .ok result) :
    ∃ token range rest next, items = .token token range :: rest ∧
      readOperand depth ⟨base, frames, .operand⟩ token range = .ok next ∧
      run depth endPosition next rest = .ok result := by
  match items with
  | [] => cases h
  | .stray _ :: _ => cases h
  | .token token range :: rest =>
      cases hread : readOperand depth ⟨base, frames, .operand⟩ token range with
      | error error => simp [run, step, hread, Except.map] at h
      | ok next =>
          simp only [run, step, hread, Except.map] at h
          exact ⟨token, range, rest, next, rfl, hread, h⟩

/-- Inside the arguments of a keyword, a successful run reads a token. -/
theorem run_argument_ok {argument : Argument}
    (h : run depth endPosition ⟨base, frames, .argument argument⟩ items = .ok result) :
    ∃ token range rest next, items = .token token range :: rest ∧
      readArgument ⟨base, frames, .argument argument⟩ argument token range = .ok next ∧
      run depth endPosition next rest = .ok result := by
  match items with
  | [] => cases h
  | .stray _ :: _ => cases h
  | .token token range :: rest =>
      cases hread : readArgument ⟨base, frames, .argument argument⟩ argument token range with
      | error error => simp [run, step, hread, Except.map] at h
      | ok next =>
          simp only [run, step, hread, Except.map] at h
          exact ⟨token, range, rest, next, rfl, hread, h⟩

/-- Behind a complete operand in a frame, a successful run reads a comma or closes the frame. -/
theorem run_complete_ok {frame : Frame} {term : Term String}
    (h : run depth endPosition ⟨base, frame :: frames, .complete term⟩ items = .ok result) :
    (∃ comma rest, items = .token .comma comma :: rest ∧
      run depth endPosition (readComma ⟨base, frame :: frames, .complete term⟩ term) rest =
        .ok result) ∨
    (∃ closing rest, items = .token .closeParen closing :: rest ∧
      run depth endPosition ⟨base, frames, .complete (frame.close term closing)⟩ rest =
        .ok result) := by
  match items with
  | [] => cases h
  | .stray _ :: _ => cases h
  | .token token range :: rest =>
      cases token with
      | comma => exact .inl ⟨range, rest, rfl, h⟩
      | closeParen => exact .inr ⟨range, rest, rfl, h⟩
      | openParen => cases term <;> cases h
      | _ => cases h

/-- A successful run from a place where an operand is awaited, by the first token: a numeral or a
name is an operand, a keyword has a parenthesis behind it, and a parenthesis opens a group. -/
inductive OperandRun (depth endPosition : Nat) (base : List (Term String)) (frames : List Frame)
    (result : List (Term String) × List Lexeme) : List Lexeme → Prop where
  | number (digits rest) :
      (numeral digits).Fits →
      run depth endPosition ⟨base, frames, .complete (Phrase.number digits).term⟩ rest =
        .ok result →
      OperandRun depth endPosition base frames result (numeral digits :: rest)
  | name (text : Spanned String) (rest) :
      run depth endPosition ⟨base, frames, .complete (Phrase.name text).term⟩ rest = .ok result →
      OperandRun depth endPosition base frames result (.token (.name text.value) text.range :: rest)
  | keyword (reserved) (call : Call) (rest) :
      (reserved = .record → depth + openRecords frames < maxRecordDepth) →
      run depth endPosition ⟨base, frames, .argument (firstArgument call reserved)⟩ rest =
        .ok result →
      OperandRun depth endPosition base frames result
        (.token (.keyword reserved) call.keyword :: .token .openParen call.opening :: rest)
  | openParen (opening rest) :
      run depth endPosition ⟨base, .group opening [] :: frames, .operand⟩ rest = .ok result →
      OperandRun depth endPosition base frames result (.token .openParen opening :: rest)

/-- Every successful run from a place where an operand is awaited is of one of the four kinds. -/
theorem operandRun_of_ok
    (h : run depth endPosition ⟨base, frames, .operand⟩ items = .ok result) :
    OperandRun depth endPosition base frames result items := by
  obtain ⟨token, range, rest, next, rfl, hread, hrun⟩ := run_operand_ok h
  cases token with
  | number digits =>
      cases hinteger : integer range digits with
      | error error => simp [readOperand, hinteger] at hread
      | ok value =>
          obtain ⟨hfits, rfl⟩ := fits_of_integer hinteger
          simp only [readOperand, hinteger, Except.ok.injEq] at hread
          subst hread
          exact .number ⟨range, digits⟩ rest hfits hrun
  | name text =>
      cases hread
      exact .name ⟨range, text⟩ rest hrun
  | keyword reserved =>
      by_cases hdeep : reserved = .record ∧ maxRecordDepth ≤ depth + openRecords frames
      · have herror : readOperand depth ⟨base, frames, .operand⟩ (.keyword reserved) range =
            .error (.nestingTooDeep range) := if_pos hdeep
        rw [herror] at hread
        cases hread
      · have hnext : readOperand depth ⟨base, frames, .operand⟩ (.keyword reserved) range =
            .ok ⟨base, frames, .argument (.opening reserved range)⟩ := if_neg hdeep
        rw [hnext, Except.ok.injEq] at hread
        subst hread
        obtain ⟨token, opening, rest, next, rfl, hread, hrun⟩ := run_argument_ok hrun
        cases token with
        | openParen =>
            cases hread
            refine .keyword reserved ⟨range, opening⟩ rest (fun hrecord => ?_) hrun
            exact Nat.not_le.1 fun hle => hdeep ⟨hrecord, hle⟩
        | _ => cases hread
  | openParen =>
      cases hread
      exact .openParen range rest hrun
  | _ => cases hread

/-- A successful run that awaits a numeral reads one that fits. -/
theorem run_integer_ok {argument : Argument} (following : Spanned UInt64 → Argument)
    (hawaits : ∀ token range, readArgument ⟨base, frames, .argument argument⟩ argument token range =
      match token with
      | .number digits =>
        match integer range digits with
        | .ok value => .ok ⟨base, frames, .argument (following value)⟩
        | .error error => .error error
      | _ => unexpected range token [.integer])
    (h : run depth endPosition ⟨base, frames, .argument argument⟩ items = .ok result) :
    ∃ digits rest, items = numeral digits :: rest ∧ (numeral digits).Fits ∧
      run depth endPosition ⟨base, frames, .argument (following (word digits))⟩ rest =
        .ok result := by
  obtain ⟨token, range, rest, next, rfl, hread, hrun⟩ := run_argument_ok h
  rw [hawaits] at hread
  cases token with
  | number digits =>
      cases hinteger : integer range digits with
      | error error => simp [hinteger] at hread
      | ok value =>
          obtain ⟨hfits, rfl⟩ := fits_of_integer hinteger
          simp only [hinteger, Except.ok.injEq] at hread
          subst hread
          exact ⟨⟨range, digits⟩, rest, rfl, hfits, hrun⟩
  | _ => cases hread

/-- A successful run that awaits a label reads one with its equals sign. -/
theorem run_label_ok {call : Call} {before : TermFields String}
    (h : run depth endPosition ⟨base, frames, .argument (.label call before)⟩ items =
      .ok result) :
    ∃ label equals rest, items = labelled label equals rest ∧
      run depth endPosition
        ⟨base, .field call before ⟨label.range, label.value.text⟩ :: frames, .operand⟩ rest =
        .ok result := by
  obtain ⟨token, range, rest, next, rfl, hread, hrun⟩ := run_argument_ok h
  obtain ⟨label, rfl, hnext⟩ : ∃ label : Label, token = label.token ∧
      next = ⟨base, frames, .argument (.equals call before ⟨range, label.text⟩)⟩ := by
    cases token with
    | name text =>
        cases hread
        exact ⟨.name text, rfl, rfl⟩
    | keyword reserved =>
        cases hread
        exact ⟨.keyword reserved, rfl, rfl⟩
    | _ => cases hread
  subst hnext
  obtain ⟨token, equals, rest, next, rfl, hread, hrun⟩ := run_argument_ok hrun
  cases token with
  | equals =>
      cases hread
      exact ⟨⟨range, label⟩, equals, rest, rfl, hrun⟩
  | _ => cases hread

/-- A successful run through an enumeration has moved over its values. -/
theorem exists_values {call : Call} {before : List (Spanned UInt64)} {items : List Lexeme}
    (h : run depth endPosition ⟨base, frames, .argument (.enumValue call before)⟩ items =
      .ok result) :
    ∃ values closing rest,
      items = NumeralList.lexemes values ++ .token .closeParen closing :: rest ∧
      (∀ item ∈ values.lexemes, item.Fits) ∧
      run depth endPosition ⟨base, frames,
        .complete (.enum (call.keyword.merge closing) (before.reverse ++ values.words))⟩ rest =
        .ok result := by
  obtain ⟨digits, others, rfl, hfits, hrun⟩ :=
    run_integer_ok (fun value => .enumNext call (value :: before)) (fun _ _ => rfl) h
  obtain ⟨token, range, rest, next, rfl, hread, hrun⟩ := run_argument_ok hrun
  cases token with
  | comma =>
      cases hread
      obtain ⟨values, closing, rest, rfl, htail, hrun⟩ := exists_values hrun
      refine ⟨.more digits range values, closing, rest, rfl, ?_, ?_⟩
      · simpa [NumeralList.lexemes, hfits] using htail
      · simpa [NumeralList.words] using hrun
  | closeParen =>
      cases hread
      refine ⟨.last digits, range, rest, rfl, ?_, ?_⟩
      · simpa [NumeralList.lexemes] using hfits
      · simpa [NumeralList.words] using hrun
  | _ => cases hread
termination_by items.length

/-- A successful run through the bounds of a range has moved over two numerals. -/
theorem exists_bounds {call : Call}
    (h : run depth endPosition ⟨base, frames, .argument (.lower call)⟩ items = .ok result) :
    ∃ lower comma upper closing rest,
      items = numeral lower :: .token .comma comma :: numeral upper ::
        .token .closeParen closing :: rest ∧
      (numeral lower).Fits ∧ (numeral upper).Fits ∧
      run depth endPosition ⟨base, frames,
        .complete (.var (call.keyword.merge closing) (word lower) (word upper))⟩ rest =
        .ok result := by
  obtain ⟨lower, rest, rfl, hlower, hrun⟩ :=
    run_integer_ok (fun value => .separator call value) (fun _ _ => rfl) h
  obtain ⟨token, comma, rest, next, rfl, hread, hrun⟩ := run_argument_ok hrun
  cases token with
  | comma =>
      cases hread
      obtain ⟨upper, rest, rfl, hupper, hrun⟩ :=
        run_integer_ok (fun value => .closing call (word lower) value) (fun _ _ => rfl) hrun
      obtain ⟨token, closing, rest, next, rfl, hread, hrun⟩ := run_argument_ok hrun
      cases token with
      | closeParen =>
          cases hread
          exact ⟨lower, comma, upper, closing, rest, rfl, hlower, hupper, hrun⟩
      | _ => cases hread
  | _ => cases hread

end Success

mutual
/-- A successful run from a place where an operand is awaited has moved over an operand. -/
theorem exists_phrase {frames : List Frame} {items : List Lexeme}
    {result : List (Term String) × List Lexeme}
    (hopen : depth + openRecords frames ≤ maxRecordDepth)
    (h : run depth endPosition ⟨base, frames, .operand⟩ items = .ok result) :
    ∃ phrase rest, items = Phrase.lexemes phrase ++ rest ∧
      (∀ item ∈ phrase.lexemes, item.Fits) ∧
      depth + openRecords frames + phrase.depth ≤ maxRecordDepth ∧
      run depth endPosition ⟨base, frames, .complete phrase.term⟩ rest = .ok result := by
  cases operandRun_of_ok h with
  | number digits rest hfits hrun =>
      refine ⟨.number digits, rest, rfl, ?_, hopen, hrun⟩
      simpa [Phrase.lexemes] using hfits
  | name text rest hrun =>
      refine ⟨.name text, rest, rfl, ?_, hopen, hrun⟩
      simp [Phrase.lexemes]
  | keyword reserved call rest hdepth hrun =>
      cases reserved with
      | record =>
          obtain ⟨fields, closing, rest, rfl, hfits, hfields, hrun⟩ :=
            exists_fields (hdepth rfl) hrun
          refine ⟨.record call fields closing, rest, ?_, ?_, ?_, hrun⟩
          · simp [Phrase.lexemes, wrap]
          · simpa [Phrase.lexemes, wrap, or_imp, forall_and] using hfits
          · simp only [Phrase.depth]
            omega
      | enum =>
          obtain ⟨values, closing, rest, rfl, hfits, hrun⟩ := exists_values hrun
          refine ⟨.enum call values closing, rest, ?_, ?_, hopen, hrun⟩
          · simp [Phrase.lexemes, wrap]
          · simpa [Phrase.lexemes, wrap, or_imp, forall_and] using hfits
      | var =>
          obtain ⟨lower, comma, upper, closing, rest, rfl, hlower, hupper, hrun⟩ :=
            exists_bounds hrun
          refine ⟨.var call lower comma upper closing, rest, ?_, ?_, hopen, hrun⟩
          · simp [Phrase.lexemes, wrap]
          · simpa [Phrase.lexemes, wrap] using And.intro hlower hupper
  | openParen opening rest hrun =>
      obtain ⟨members, closing, rest, rfl, hfits, hdepth, hrun⟩ := exists_members hopen hrun
      refine ⟨.group opening members closing, rest, ?_, ?_, hdepth, hrun⟩
      · simp [Phrase.lexemes]
      · simpa [Phrase.lexemes, or_imp, forall_and] using hfits
termination_by (items.length, 0)

/-- A successful run inside a group has moved over its members. -/
theorem exists_members {frames : List Frame} {opening : ByteRange} {before : List (Term String)}
    {items : List Lexeme} {result : List (Term String) × List Lexeme}
    (hopen : depth + openRecords frames ≤ maxRecordDepth)
    (h : run depth endPosition ⟨base, .group opening before :: frames, .operand⟩ items =
      .ok result) :
    ∃ members closing rest,
      items = PhraseList.lexemes members ++ .token .closeParen closing :: rest ∧
      (∀ item ∈ members.lexemes, item.Fits) ∧
      depth + openRecords frames + members.depth ≤ maxRecordDepth ∧
      run depth endPosition ⟨base, frames,
        .complete (.group (opening.merge closing) (before.reverse ++ members.terms))⟩ rest =
        .ok result := by
  obtain ⟨operand, others, hitems, hfits, hdepth, hrun⟩ := exists_phrase (by simpa using hopen) h
  rw [openRecords_group] at hdepth
  rcases run_complete_ok hrun with ⟨comma, tail, hothers, hmore⟩ | ⟨closing, rest, hothers, hlast⟩
  -- The comma is gone when the other members are looked for.
  · have hlength : tail.length < items.length := by
      simp only [hitems, hothers, List.length_append, List.length_cons]
      omega
    obtain ⟨members, closing, rest, rfl, htail, hmembers, hlast⟩ := exists_members hopen hmore
    refine ⟨.more operand comma members, closing, rest, ?_, ?_, ?_, ?_⟩
    · simp [hitems, hothers, PhraseList.lexemes]
    · simpa [PhraseList.lexemes, or_imp, forall_and] using And.intro hfits htail
    · simp only [PhraseList.depth]
      omega
    · simpa [PhraseList.terms] using hlast
  · refine ⟨.last operand, closing, rest, by rw [hitems, hothers, PhraseList.lexemes], hfits,
      hdepth, ?_⟩
    simpa [Frame.close, PhraseList.terms] using hlast
termination_by (items.length, 1)

/-- A successful run inside a record has moved over its fields. -/
theorem exists_fields {frames : List Frame} {call : Call} {before : TermFields String}
    {items : List Lexeme} {result : List (Term String) × List Lexeme}
    (hopen : depth + openRecords frames < maxRecordDepth)
    (h : run depth endPosition ⟨base, frames, .argument (.label call before)⟩ items =
      .ok result) :
    ∃ fields closing rest,
      items = FieldList.lexemes fields ++ .token .closeParen closing :: rest ∧
      (∀ item ∈ fields.lexemes, item.Fits) ∧
      depth + openRecords frames + 1 + fields.depth ≤ maxRecordDepth ∧
      run depth endPosition ⟨base, frames,
        .complete (.record (call.keyword.merge closing) (before.reverse ++ fields.terms))⟩ rest =
        .ok result := by
  obtain ⟨label, equals, typed, hitems, hrun⟩ := run_label_ok h
  -- The label and its equals sign are gone, so that the type is found in fewer items.
  have hlength : typed.length < items.length := by
    simp only [hitems, labelled, List.length_cons]
    omega
  obtain ⟨type, others, htyped, hfits, hdepth, hrun⟩ :=
    exists_phrase (by rw [openRecords_field]; omega) hrun
  rw [openRecords_field] at hdepth
  rcases run_complete_ok hrun with ⟨comma, tail, hothers, hmore⟩ | ⟨closing, rest, hothers, hlast⟩
  · have hlength : tail.length < items.length := by
      simp only [hitems, labelled, htyped, hothers, List.length_append, List.length_cons]
      omega
    obtain ⟨fields, closing, rest, rfl, htail, hfields, hlast⟩ := exists_fields hopen hmore
    refine ⟨.more label equals type comma fields, closing, rest, ?_, ?_, ?_, ?_⟩
    · simp [hitems, htyped, hothers, FieldList.lexemes, labelled]
    · simpa [FieldList.lexemes, labelled, or_imp, forall_and] using And.intro hfits htail
    · simp only [FieldList.depth]
      omega
    · simpa [FieldList.terms] using hlast
  · refine ⟨.last label equals type, closing, rest, ?_, ?_, ?_, ?_⟩
    · simp [hitems, htyped, hothers, FieldList.lexemes, labelled]
    · simpa [FieldList.lexemes, labelled] using hfits
    · simp only [FieldList.depth]
      omega
    · simpa [Frame.close, FieldList.terms] using hlast
termination_by (items.length, 1)
end

/-- Behind a complete operand outside all frames, a successful run reads a comma or has ended. -/
theorem run_end_ok {term : Term String} {items : List Lexeme}
    {result : List (Term String) × List Lexeme}
    (h : run depth endPosition ⟨base, [], .complete term⟩ items = .ok result) :
    (∃ comma rest, items = .token .comma comma :: rest ∧
      run depth endPosition ⟨term :: base, [], .operand⟩ rest = .ok result) ∨
    result = ((term :: base).reverse, items) := by
  match items with
  | [] =>
      cases h
      exact .inr rfl
  | .stray _ :: _ => cases h
  | .token token range :: rest =>
      cases token with
      | comma => exact .inl ⟨range, rest, rfl, h⟩
      | openParen =>
          cases term with
          | name => cases h
          | _ =>
              cases h
              exact .inr rfl
      | _ =>
          cases h
          exact .inr rfl

/-- A successful run outside all frames has moved over a list of operands, up to the items that
it leaves. -/
theorem exists_phraseList {base : List (Term String)} {items : List Lexeme}
    {result : List (Term String) × List Lexeme} (hopen : depth ≤ maxRecordDepth)
    (h : run depth endPosition ⟨base, [], .operand⟩ items = .ok result) :
    ∃ phrases : PhraseList, items = phrases.lexemes ++ result.2 ∧
      (∀ item ∈ phrases.lexemes, item.Fits) ∧ depth + phrases.depth ≤ maxRecordDepth ∧
      result.1 = base.reverse ++ phrases.terms := by
  obtain ⟨operand, others, hitems, hfits, hdepth, hrun⟩ := exists_phrase hopen h
  rcases run_end_ok hrun with ⟨comma, tail, hothers, hmore⟩ | hlast
  · have hlength : tail.length < items.length := by
      simp only [hitems, hothers, List.length_append, List.length_cons]
      omega
    obtain ⟨phrases, htail, htailFits, htailDepth, hterms⟩ := exists_phraseList hopen hmore
    refine ⟨.more operand comma phrases, ?_, ?_, ?_, ?_⟩
    · simp [hitems, hothers, htail, PhraseList.lexemes]
    · simpa [PhraseList.lexemes, or_imp, forall_and] using And.intro hfits htailFits
    · simp only [PhraseList.depth]
      omega
    · simp [hterms, PhraseList.terms]
  · refine ⟨.last operand, ?_, hfits, hdepth, ?_⟩
    · rw [hitems, hlast, PhraseList.lexemes]
    · simp [hlast, PhraseList.terms]
termination_by items.length

/-- A list of items is read as a tree exactly when it has a derivation with numerals that fit and
at most `maxRecordDepth` records around each other, and the tree is the one it stands for. -/
theorem ofLexemes_eq_ok_iff {items : List Lexeme} {tree : Tree String} :
    Tree.ofLexemes endPosition items = .ok tree ↔
      ∃ phrases : PhraseList, phrases.lexemes = items ∧ (∀ item ∈ items, item.Fits) ∧
        phrases.depth ≤ maxRecordDepth ∧ tree.terms = phrases.terms := by
  constructor
  · intro h
    unfold Tree.ofLexemes at h
    split at h
    · cases h
    · next terms hrun =>
        cases h
        obtain ⟨phrases, hitems, hfits, hdepth, hterms⟩ :=
          exists_phraseList (Nat.zero_le _) hrun
        rw [List.append_nil] at hitems
        refine ⟨phrases, hitems.symm, hitems ▸ hfits, by omega, hterms⟩
    · cases h
    · cases h
  · intro h
    obtain ⟨phrases, rfl, hfits, hdepth, hterms⟩ := h
    have hrun : run 0 endPosition .initial phrases.lexemes = .ok (phrases.terms, []) :=
      run_phraseList phrases [] hfits (by omega)
    cases tree
    simp_all [Tree.ofLexemes]

end ArrayShape.Grammar
