import ArrayShape.Proofs.Acceptance
import ArrayShape.Proofs.Description

/-!
# Reading printed shapes

A printed shape whose parts are spellable has a derivation, which lies as deep as the records of the
shape do and describes the shape with its type variables `resolved`. If the parts are writable, that
is the shape again (`exists_derivation`). A shape is therefore read from its
printed form exactly when it has an operand, its parts are writable and pass the checks, and its
records do not lie inside too many others (`parse_text_eq_ok_iff`). Of these conditions a shape that
was read from a text can only miss the last: a composite type with a name is read as a name, and
is printed as a record.
-/

namespace ArrayShape

/-! ## Items that carry tokens -/

/-- The items are the tokens, each with some range. -/
def Lexeme.Carry (items : List Lexeme) (tokens : List Token) : Prop :=
  items.map Lexeme.token? = tokens.map some

namespace Lexeme

variable {items : List Lexeme}

/-- Items that carry no token are none. -/
theorem Carry.nil (h : Carry items []) : items = [] :=
  List.map_eq_nil_iff.1 h

/-- Items that carry a token and others begin with the token. -/
theorem Carry.cons {found : Token} {rest : List Token} (h : Carry items (found :: rest)) :
    ∃ range others, items = .token found range :: others ∧ Carry others rest := by
  obtain ⟨item, others, rfl, hitem, hothers⟩ := List.map_eq_cons_iff.1 h
  cases item with
  | stray range => cases hitem
  | token token range =>
      cases hitem
      exact ⟨range, others, rfl, hothers⟩

/-- Items that carry a token alone are the token. -/
theorem Carry.singleton {found : Token} (h : Carry items [found]) :
    ∃ range, items = [.token found range] := by
  obtain ⟨range, others, rfl, hothers⟩ := h.cons
  rw [hothers.nil]
  exact ⟨range, rfl⟩

/-- Items that carry tokens one after another are divided like the tokens. -/
theorem Carry.append {first second : List Token} (h : Carry items (first ++ second)) :
    ∃ before behind, items = before ++ behind ∧ Carry before first ∧ Carry behind second := by
  rw [Carry, List.map_append] at h
  exact List.map_eq_append_iff.1 h

end Lexeme

/-! ## What the names of an operand stand for -/

namespace Operand

mutual
/-- An operand with each type variable replaced by the operand that its name denotes. -/
def resolved : Operand String → Operand String
  | .typeVar name => ofName name
  | .record fields => .record (fieldsResolved fields)
  | .integer value => .integer value
  | .enum values => .enum values
  | .var lower upper => .var lower upper
  | .dtype scalar => .dtype scalar

/-- Fields with the type variables of their types replaced. -/
def fieldsResolved : Fields String → Fields String
  | [] => []
  | (label, type) :: rest => (label, type.resolved) :: fieldsResolved rest
end

mutual
/-- The type variables of writable parts denote themselves. -/
theorem resolved_eq_self (operand : Operand String)
    (hwritable : ∀ part ∈ operand.parts, part.Writable) : operand.resolved = operand := by
  cases operand with
  | typeVar name =>
      obtain ⟨-, -, hscalar, htype⟩ := hwritable (.typeVar name) (mem_parts_self _)
      simp [resolved, ofName, hscalar, htype]
  | record fields =>
      rw [parts, List.forall_mem_cons] at hwritable
      rw [resolved, fieldsResolved_eq_self fields hwritable.2]
  | _ => rfl

/-- The type variables of fields with writable types denote themselves. -/
theorem fieldsResolved_eq_self (fields : Fields String)
    (hwritable : ∀ part ∈ fieldsParts fields, part.Writable) : fieldsResolved fields = fields := by
  match fields with
  | [] => rfl
  | (label, type) :: rest =>
      rw [fieldsParts, List.forall_mem_append] at hwritable
      rw [fieldsResolved, resolved_eq_self type hwritable.1,
        fieldsResolved_eq_self rest hwritable.2]
end

end Operand

namespace Grammar

open Lexeme Operand
open Shape (flatten flattenAll flattenFields flatten_record_eq_ok_iff flatten_var_eq_ok_iff
  flattenAll_cons_eq_ok_iff flattenFields_cons_eq_ok_iff)

variable {items : List Lexeme}

/-! ## Derivations of printed operands -/

/-- The numeral of a word denotes the word. -/
@[simp] theorem value_word_write (range : ByteRange) (value : UInt64) :
    (word ⟨range, Decimal.write value⟩).value = value := by
  simp [word, Decimal.value_write]

/-- The numeral of a word fits. -/
theorem fits_numeral_write (range : ByteRange) (value : UInt64) :
    (numeral ⟨range, Decimal.write value⟩).Fits := by
  show Decimal.value (Decimal.write value) < UInt64.size
  rw [Decimal.value_write]
  exact value.toNat_lt

/-- Items that carry the numeral of a word are that numeral. -/
theorem exists_numeral_of_tokens {value : UInt64} (h : Carry items [wordToken value]) :
    ∃ range, items = [numeral ⟨range, Decimal.write value⟩] :=
  h.singleton

/-- Items that carry a call are a keyword with arguments in parentheses. -/
theorem exists_wrap_of_tokens {reserved : Keyword} {arguments : List (List Token)}
    (h : Carry items (callTokens reserved arguments)) :
    ∃ call inner closing, items = wrap reserved call inner closing ∧
      Carry inner (joined arguments) := by
  obtain ⟨keyword, others, rfl, hopening⟩ := h.cons
  obtain ⟨opening, others, rfl, harguments⟩ := hopening.cons
  obtain ⟨inner, last, rfl, hinner, hlast⟩ := harguments.append
  obtain ⟨closing, rfl⟩ := hlast.singleton
  exact ⟨⟨keyword, opening⟩, inner, closing, rfl, hinner⟩

/-- Items that carry the numerals of words derive a list of numerals for them. -/
theorem exists_numerals_of_tokens {values : List UInt64} (hne : values ≠ [])
    (h : Carry items (joined (values.map ([wordToken ·])))) :
    ∃ numerals : NumeralList, numerals.lexemes = items ∧ (∀ item ∈ items, item.Fits) ∧
      numerals.words.map (·.value) = values := by
  induction values generalizing items with
  | nil => exact absurd rfl hne
  | cons value rest ih =>
      cases rest with
      | nil =>
          obtain ⟨range, rfl⟩ := exists_numeral_of_tokens (by simpa using h)
          refine ⟨.last ⟨range, Decimal.write value⟩, rfl, ?_, ?_⟩
          · simpa using fits_numeral_write range value
          · simp [NumeralList.words]
      | cons second others =>
          simp only [List.map_cons, joined_cons_cons] at h
          obtain ⟨before, behind, rfl, hvalue, hbehind⟩ := h.append
          obtain ⟨comma, last, rfl, hlast⟩ := hbehind.cons
          obtain ⟨range, rfl⟩ := exists_numeral_of_tokens hvalue
          obtain ⟨numerals, rfl, hfits, hwords⟩ := ih (by simp) hlast
          refine ⟨.more ⟨range, Decimal.write value⟩ comma numerals, rfl, ?_, ?_⟩
          · simp only [List.singleton_append, List.forall_mem_cons]
            exact ⟨fits_numeral_write range value, trivial, hfits⟩
          · simp [NumeralList.words, hwords]

/-- A word is the token of a label with its text. -/
theorem exists_label (text : String) :
    ∃ label : Label, label.token = Token.ofWord text ∧ label.text = text := by
  unfold Token.ofWord
  split
  · next reserved h => exact ⟨.keyword reserved, rfl, Keyword.text_of_ofText? h⟩
  · exact ⟨.name text, rfl, rfl⟩

/-- Items that carry a field begin with its label and an equals sign. -/
theorem exists_labelled_of_tokens {text : String} {type : List Token}
    (h : Carry items (Token.ofWord text :: .equals :: type)) :
    ∃ label equals behind, items = labelled label equals behind ∧ label.value.text = text ∧
      Carry behind type := by
  obtain ⟨label, htoken, htext⟩ := exists_label text
  obtain ⟨range, others, rfl, hequals⟩ := h.cons
  obtain ⟨equals, behind, rfl, htype⟩ := hequals.cons
  refine ⟨⟨range, label⟩, equals, behind, ?_, htext, htype⟩
  rw [labelled, htoken]

/-- The items of a field fit when the items of its type do. -/
theorem fits_labelled {label : Spanned Label} {equals : ByteRange} {type : List Lexeme}
    (h : ∀ item ∈ type, item.Fits) : ∀ item ∈ labelled label equals type, item.Fits := by
  simp only [labelled, List.forall_mem_cons]
  simpa using h

/-- The items of a call fit when the items of its arguments do. -/
theorem fits_wrap {reserved : Keyword} {call : Parser.Call} {inner : List Lexeme}
    {closing : ByteRange} (h : ∀ item ∈ inner, item.Fits) :
    ∀ item ∈ wrap reserved call inner closing, item.Fits := by
  simp only [wrap, List.forall_mem_cons, List.forall_mem_append]
  simpa using h

mutual
/-- Items that carry the tokens of an operand derive a phrase for what its names denote. -/
theorem exists_phrase_of_tokens (operand : Operand String)
    (hspellable : ∀ part ∈ operand.parts, part.Spellable) (items : List Lexeme)
    (h : Carry items operand.tokens) :
    ∃ phrase : Phrase, phrase.lexemes = items ∧ (∀ item ∈ items, item.Fits) ∧
      phrase.depth = operand.recordDepth ∧
        flatten .relaxed Operand.ofName phrase.term = .ok [operand.resolved] := by
  cases operand with
  | integer value =>
      obtain ⟨range, rfl⟩ := exists_numeral_of_tokens h
      refine ⟨.number ⟨range, Decimal.write value⟩, rfl, ?_, rfl, ?_⟩
      · simpa using fits_numeral_write range value
      · simp [Phrase.term, flatten, resolved]
  | typeVar name =>
      obtain ⟨range, rfl⟩ := h.singleton
      refine ⟨.name ⟨range, name⟩, rfl, by simp, rfl, ?_⟩
      simp [Phrase.term, flatten, resolved]
  | record fields =>
      rw [parts, List.forall_mem_cons] at hspellable
      obtain ⟨call, inner, closing, rfl, hinner⟩ := exists_wrap_of_tokens h
      obtain ⟨list, rfl, hfits, hdepth, hflatten⟩ :=
        exists_fieldList_of_tokens fields hspellable.1.1 hspellable.2 inner hinner
      refine ⟨.record call list closing, rfl, fits_wrap hfits, ?_, ?_⟩
      · show list.depth + 1 = fieldsRecordDepth fields + 1
        rw [hdepth]
      · exact flatten_record_eq_ok_iff.2 ⟨nofun, fieldsResolved fields, hflatten, rfl⟩
  | enum values =>
      have hne : values ≠ [] := hspellable (.enum values) (mem_parts_self _)
      obtain ⟨call, inner, closing, rfl, hinner⟩ := exists_wrap_of_tokens h
      obtain ⟨numerals, rfl, hfits, hwords⟩ := exists_numerals_of_tokens hne hinner
      refine ⟨.enum call numerals closing, rfl, fits_wrap hfits, rfl, ?_⟩
      simp [Phrase.term, flatten, hwords, resolved]
  | var lower upper =>
      obtain ⟨call, inner, closing, rfl, hinner⟩ := exists_wrap_of_tokens h
      rw [joined_cons_cons, joined_singleton] at hinner
      obtain ⟨first, behind, rfl, hfirst, hbehind⟩ := hinner.append
      obtain ⟨comma, last, rfl, hlast⟩ := hbehind.cons
      obtain ⟨lowerRange, rfl⟩ := exists_numeral_of_tokens hfirst
      obtain ⟨upperRange, rfl⟩ := exists_numeral_of_tokens hlast
      refine ⟨.var call ⟨lowerRange, Decimal.write lower⟩ comma ⟨upperRange, Decimal.write upper⟩
        closing, rfl, fits_wrap ?_, rfl, ?_⟩
      · simp only [List.singleton_append, List.forall_mem_cons]
        exact ⟨fits_numeral_write _ _, trivial, fits_numeral_write _ _, nofun⟩
      · exact flatten_var_eq_ok_iff.2 ⟨nofun, by simp [resolved]⟩
  | dtype scalar =>
      obtain ⟨range, rfl⟩ := h.singleton
      refine ⟨.name ⟨range, scalar.name⟩, rfl, by simp, rfl, ?_⟩
      simp [Phrase.term, flatten, Operand.ofName, DType.ofName?_name, resolved]

/-- Items that carry the tokens of fields derive a list of fields for what their names denote. -/
theorem exists_fieldList_of_tokens (fields : Fields String) (hne : fields ≠ [])
    (hspellable : ∀ part ∈ fieldsParts fields, part.Spellable) (items : List Lexeme)
    (h : Carry items (joined (fieldsTokens fields))) :
    ∃ list : FieldList, list.lexemes = items ∧ (∀ item ∈ items, item.Fits) ∧
      list.depth = fieldsRecordDepth fields ∧
        flattenFields .relaxed Operand.ofName list.terms = .ok (fieldsResolved fields) := by
  match fields with
  | [] => exact absurd rfl hne
  | [(label, type)] =>
      simp only [fieldsParts, List.append_nil] at hspellable
      simp only [fieldsTokens, joined_singleton] at h
      obtain ⟨written, equals, behind, rfl, htext, htype⟩ := exists_labelled_of_tokens h
      obtain ⟨phrase, rfl, hfits, hdepth, hflatten⟩ :=
        exists_phrase_of_tokens type hspellable behind htype
      refine ⟨.last written equals phrase, rfl, ?_, ?_, ?_⟩
      · exact fits_labelled hfits
      · simp [FieldList.depth, fieldsRecordDepth, hdepth]
      · rw [FieldList.terms, htext]
        exact flattenFields_cons_eq_ok_iff.2
          ⟨type.resolved, [], hflatten, by rw [flattenFields], rfl⟩
  | (label, type) :: (next, following) :: rest =>
      rw [fieldsParts, List.forall_mem_append] at hspellable
      simp only [fieldsTokens, joined_cons_cons] at h
      obtain ⟨before, behind, rfl, hfield, hbehind⟩ := h.append
      obtain ⟨comma, last, rfl, hlast⟩ := hbehind.cons
      obtain ⟨written, equals, inner, rfl, htext, htype⟩ := exists_labelled_of_tokens hfield
      obtain ⟨phrase, rfl, hfits, hdepth, hflatten⟩ :=
        exists_phrase_of_tokens type hspellable.1 inner htype
      obtain ⟨list, rfl, hlistFits, hlistDepth, hlist⟩ :=
        exists_fieldList_of_tokens ((next, following) :: rest) nofun hspellable.2 last hlast
      refine ⟨.more written equals phrase comma list, rfl, ?_, ?_, ?_⟩
      · rw [List.forall_mem_append, List.forall_mem_cons]
        exact ⟨fits_labelled hfits, trivial, hlistFits⟩
      · show max phrase.depth list.depth =
          max type.recordDepth (fieldsRecordDepth ((next, following) :: rest))
        rw [hdepth, hlistDepth]
      · rw [FieldList.terms, htext]
        exact flattenFields_cons_eq_ok_iff.2 ⟨type.resolved, _, hflatten, hlist, rfl⟩
end

/-- Items that carry the tokens of operands derive a list of phrases for what their names
denote. -/
theorem exists_phraseList_of_tokens (operands : List (Operand String)) (hne : operands ≠ [])
    (hspellable : ∀ part ∈ operands.flatMap Operand.parts, part.Spellable)
    (h : Carry items (joined (operands.map Operand.tokens))) :
    ∃ phrases : PhraseList, phrases.lexemes = items ∧ (∀ item ∈ items, item.Fits) ∧
      phrases.depth = (operands.map Operand.recordDepth).foldr max 0 ∧
        flattenAll .relaxed Operand.ofName phrases.terms = .ok (operands.map resolved) := by
  induction operands generalizing items with
  | nil => exact absurd rfl hne
  | cons operand rest ih =>
      rw [List.flatMap_cons, List.forall_mem_append] at hspellable
      cases rest with
      | nil =>
          simp only [List.map_cons, List.map_nil, joined_singleton] at h
          obtain ⟨phrase, rfl, hfits, hdepth, hflatten⟩ :=
            exists_phrase_of_tokens operand hspellable.1 items h
          refine ⟨.last phrase, rfl, hfits, by simp [PhraseList.depth, hdepth], ?_⟩
          exact flattenAll_cons_eq_ok_iff.2
            ⟨[operand.resolved], [], hflatten, by rw [flattenAll], rfl⟩
      | cons second others =>
          simp only [List.map_cons, joined_cons_cons] at h
          obtain ⟨before, behind, rfl, hoperand, hbehind⟩ := h.append
          obtain ⟨comma, last, rfl, hlast⟩ := hbehind.cons
          obtain ⟨phrase, rfl, hfits, hdepth, hflatten⟩ :=
            exists_phrase_of_tokens operand hspellable.1 before hoperand
          obtain ⟨phrases, rfl, hlastFits, hlastDepth, hlastFlatten⟩ := ih nofun hspellable.2 hlast
          refine ⟨.more phrase comma phrases, rfl, ?_, ?_, ?_⟩
          · rw [List.forall_mem_append, List.forall_mem_cons]
            exact ⟨hfits, trivial, hlastFits⟩
          · show max phrase.depth phrases.depth = max operand.recordDepth _
            rw [hdepth, hlastDepth]
          · exact flattenAll_cons_eq_ok_iff.2 ⟨[operand.resolved], _, hflatten, hlastFlatten, rfl⟩

end Grammar

/-- An operand inside a number of records, each the only field of the record around it. -/
def Operand.enclosed (operand : Operand String) : Nat → Operand String
  | 0 => operand
  | count + 1 => .record [("a", operand.enclosed count)]

namespace Shape

open Grammar

variable {options : Options} {shape : Shape String}

/-! ## The round trip -/

/-- A printed shape with an operand and spellable parts has a derivation as deep as its records,
which describes, apart from checks, the operands that its own operands denote. -/
theorem exists_derivation_of_spellable (hne : shape.operands ≠ [])
    (hspellable : ∀ part ∈ shape.parts, part.Spellable) :
    ∃ phrases : PhraseList, phrases.lexemes = Lexeme.ofText shape.text ∧
      (∀ item ∈ Lexeme.ofText shape.text, item.Fits) ∧ phrases.depth = shape.recordDepth ∧
        flattenAll .relaxed Operand.ofName phrases.terms =
          .ok (shape.operands.map Operand.resolved) :=
  exists_phraseList_of_tokens shape.operands hne hspellable
    (token?_ofText_of_spellable hspellable)

/-- A printed shape with an operand and writable parts has a derivation as deep as its records,
which describes the shape if its parts pass the checks. -/
theorem exists_derivation (hne : shape.operands ≠ [])
    (hwritable : ∀ part ∈ shape.parts, part.Writable) :
    ∃ phrases : PhraseList, phrases.lexemes = Lexeme.ofText shape.text ∧
      (∀ item ∈ Lexeme.ofText shape.text, item.Fits) ∧ phrases.depth = shape.recordDepth ∧
        flattenAll .relaxed Operand.ofName phrases.terms = .ok shape.operands := by
  have hself : shape.operands.map Operand.resolved = shape.operands.map id :=
    List.map_congr_left fun operand hoperand => Operand.resolved_eq_self operand fun part hpart =>
      hwritable part (List.mem_flatMap.2 ⟨operand, hoperand, hpart⟩)
  have hderivation :=
    exists_derivation_of_spellable hne fun part hpart => (hwritable part hpart).spellable
  rwa [hself, List.map_id] at hderivation

/-- A shape is read from its printed form exactly when it has an operand, its parts are writable
and pass the checks, and its records do not lie inside too many others. -/
theorem parse_text_eq_ok_iff :
    parse options shape.text = .ok shape ↔
      shape.operands ≠ [] ∧ (∀ part ∈ shape.parts, part.Writable ∧ part.Passes options) ∧
        shape.recordDepth ≤ maxRecordDepth := by
  constructor
  · intro h
    obtain ⟨hne, hparts⟩ := writable_of_parse h
    obtain ⟨phrases, hitems, -, hdepth, -⟩ := parse_eq_ok_iff.1 h
    obtain ⟨others, hothers, -, hrecords, -⟩ :=
      exists_derivation hne fun part hpart => (hparts part hpart).1
    -- The two derivations are the same, since the printed form has only one.
    have hsame : others = phrases := PhraseList.lexemes_injective (hothers.trans hitems.symm)
    refine ⟨hne, hparts, ?_⟩
    rw [← hrecords, hsame]
    exact hdepth
  · intro h
    obtain ⟨hne, hparts, hdepth⟩ := h
    obtain ⟨phrases, hitems, hfits, hrecords, hflatten⟩ :=
      exists_derivation hne fun part hpart => (hparts part hpart).1
    have hdescribed : flattenAll options Operand.ofName phrases.terms = .ok shape.operands :=
      (flattenAll_ok_iff (Operand.passes_ofName options) _ _).2
        ⟨hflatten, fun part hpart => (hparts part hpart).2⟩
    exact parse_eq_ok_iff.2 ⟨phrases, hitems, hfits, hrecords ▸ hdepth, hdescribed⟩

/-- A shape is read from its printed form exactly when it has an operand; its type variables are
identifiers that are no keywords and stand for nothing else; its records have fields, and
identifiers as labels; its enumerations have values; no record lies inside `maxRecordDepth`
others; and, as far as the options ask for it, bounds are in order and labels are distinct. -/
theorem reads_back_iff (options : Options) (shape : Shape String) :
    parse options shape.text = .ok shape ↔
      shape.operands ≠ [] ∧
      (∀ name, .typeVar name ∈ shape.parts →
        Text.isIdentifier name = true ∧ Keyword.ofText? name = none ∧
          DType.ofName? name = none ∧ Operand.ofTypeName? name = none) ∧
      (∀ fields, .record fields ∈ shape.parts →
        fields ≠ [] ∧ ∀ field ∈ fields, Text.isIdentifier field.1 = true) ∧
      (∀ values, .enum values ∈ shape.parts → values ≠ []) ∧
      shape.recordDepth ≤ maxRecordDepth ∧
      (options.validateBounds = true →
        ∀ lower upper, .var lower upper ∈ shape.parts → lower ≤ upper) ∧
      (options.allowRepeats = false →
        ∀ fields, .record fields ∈ shape.parts → (fields.map Prod.fst).Nodup) := by
  rw [parse_text_eq_ok_iff]
  constructor
  · intro h
    obtain ⟨hne, hparts, hdepth⟩ := h
    refine ⟨hne, fun name hname => (hparts _ hname).1, fun fields hfields => (hparts _ hfields).1,
      fun values hvalues => (hparts _ hvalues).1, hdepth, ?_, ?_⟩
    · exact fun hvalidate lower upper hvar => (hparts _ hvar).2 hvalidate
    · exact fun hallow fields hfields => (hparts _ hfields).2 hallow
  · intro h
    obtain ⟨hne, hnames, hrecords, henums, hdepth, hbounds, hlabels⟩ := h
    refine ⟨hne, fun part hpart => ?_, hdepth⟩
    cases part with
    | typeVar name => exact ⟨hnames name hpart, trivial⟩
    | record fields => exact ⟨hrecords fields hpart, fun hallow => hlabels hallow fields hpart⟩
    | enum values => exact ⟨henums values hpart, trivial⟩
    | var lower upper =>
        exact ⟨trivial, fun hvalidate => hbounds hvalidate lower upper hpart⟩
    | integer value => exact ⟨trivial, trivial⟩
    | dtype scalar => exact ⟨trivial, trivial⟩

/-- A shape that was read from a text is read from its printed form again exactly when no record of
it lies inside `maxRecordDepth` others. A text may hold a name at such a depth, which is printed as
the record that it stands for. The printed form is then rejected for its nesting. -/
theorem reads_back_of_parse {options : Options} {source : String} {shape : Shape String}
    (h : parse options source = .ok shape) :
    (parse options shape.text = .ok shape ↔ shape.recordDepth ≤ maxRecordDepth) ∧
      (maxRecordDepth < shape.recordDepth →
        ∃ range, parse options shape.text = .error (.malformed (.nestingTooDeep range))) := by
  obtain ⟨hne, hparts⟩ := writable_of_parse h
  refine ⟨?_, fun hdeep => ?_⟩
  · rw [parse_text_eq_ok_iff]
    exact ⟨fun hback => hback.2.2, fun hdepth => ⟨hne, hparts, hdepth⟩⟩
  · obtain ⟨phrases, hitems, hfits, hrecords, -⟩ :=
      exists_derivation hne fun part hpart => (hparts part hpart).1
    obtain ⟨range, herror⟩ := ofLexemes_deep (hitems ▸ hfits) (hrecords ▸ hdeep)
    refine ⟨range, ?_⟩
    rw [parse, Tree.parse, ← hitems, herror]

/-- A name inside as many records as may lie around each other. -/
def deepName : Shape String :=
  ⟨[.enclosed (.typeVar "RGBA") maxRecordDepth]⟩

/-- The record that the name stands for, inside as many records. -/
def deepRecord : Shape String :=
  ⟨[.enclosed (Operand.ofName "RGBA") maxRecordDepth]⟩

/-- A composite type inside as many records as may lie around each other is read when it is written
as its name, and is not read from its printed form. -/
theorem reads_back_of_parse_deep :
    parse {} deepName.text = .ok deepRecord ∧ parse {} deepRecord.text ≠ .ok deepRecord := by
  -- The characters are computed from the tokens, since the bytes of a long text compute slowly.
  have hitems : Lexeme.ofText deepName.text =
      Lexer.lexemesFrom 0 (Token.spell deepName.tokens) := by
    rw [Lexeme.ofText, toList_text]
  have hread : parse {} deepName.text = .ok deepRecord :=
    parse_eq_ok_of_items hitems (by decide +kernel)
  have hdeep : ¬ deepRecord.recordDepth ≤ maxRecordDepth := by decide +kernel
  exact ⟨hread, fun hback => hdeep ((reads_back_of_parse hread).1.1 hback)⟩

end Shape

end ArrayShape
