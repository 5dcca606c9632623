import ArrayShape.Proofs.Description
import ArrayShape.Proofs.Faults
import ArrayShape.Proofs.FirstError
import ArrayShape.Proofs.Relocation
import ArrayShape.Proofs.Spans

/-!
# Errors point into their text

Every offset in an error, and in its report, is one between characters of the text, and the part of
the text that the error marks is what the error says about it (`Shape.located_of_parse`). For a text
that is not well formed, the error points to an item of the text or to its end
(`FirstError.agrees`). For one that describes no valid shape, the term at fault is derived from
items of the text, so that its range marks it (`Shape.Faulty.agrees`).
-/

namespace ArrayShape

open Grammar Text

/-! ## Ranges between characters -/

/-- The range starts and stops between characters of a text, and does not stop before it starts. -/
structure ByteRange.Within (source : String) (range : ByteRange) : Prop where
  ordered : range.start ≤ range.stop
  inside : range.stop ≤ source.utf8ByteSize
  start : String.Pos.Raw.IsValid source ⟨range.start⟩
  stop : String.Pos.Raw.IsValid source ⟨range.stop⟩

namespace Text

variable {source text : String} {range : ByteRange}

/-- The offset behind the first characters of a text is between characters. -/
theorem isValid_byteLength {before behind : List Char} (h : source.toList = before ++ behind) :
    String.Pos.Raw.IsValid source ⟨byteLength before⟩ := by
  refine String.Pos.Raw.isValid_iff_exists_append.2
    ⟨String.ofList before, String.ofList behind, ?_, ?_⟩
  · rw [← String.ofList_append, ← h, String.ofList_toList]
  · rw [← byteLength_ofList]
    rfl

/-- A range that marks a part of a text is between characters. -/
theorem within_of_slice? (h : slice? source range = some text) : range.Within source := by
  obtain ⟨before, behind, hsource, hstart, hstop⟩ := slice?_eq_some_iff.1 h
  have hbefore : source.toList = before ++ (text.toList ++ behind) := by
    rw [hsource, List.append_assoc]
  refine ⟨?_, ?_, hstart ▸ isValid_byteLength hbefore, hstop ▸ isValid_byteLength hsource⟩
  · rw [← hstart, ← hstop, byteLength_append]
    exact Nat.le_add_right _ _
  · have hsize := byteLength_toList source
    rw [hsource, byteLength_append] at hsize
    omega

/-- The empty range at the end of a text is between characters. -/
theorem within_end (source : String) : (ByteRange.empty source.utf8ByteSize).Within source := by
  have hslice : slice? source (.empty source.utf8ByteSize) = some "" :=
    slice?_eq_some_iff.2 ⟨source.toList, [], by simp, byteLength_toList source,
      by simpa [ByteRange.empty] using byteLength_toList source⟩
  exact within_of_slice? hslice

/-- A range has as many bytes as the part that it marks. -/
theorem size_of_slice? (h : slice? source range = some text) :
    range.stop - range.start = text.utf8ByteSize := by
  obtain ⟨before, behind, -, hstart, hstop⟩ := slice?_eq_some_iff.1 h
  rw [byteLength_append, byteLength_toList] at hstop
  omega

end Text

/-! ## What an error says about its text -/

/-- All the offsets of an error, as ranges. A single offset is an empty range. -/
def ParseError.ranges : ParseError → List ByteRange
  | .strayCharacter range | .unexpectedToken range _ _ | .unknownConstructor range _
  | .integerTooLarge range | .nestingTooDeep range => [range]
  | .unexpectedEnd position _ => [.empty position]
  | .unclosedParen opening endPosition => [opening, .empty endPosition]

/-- All the offsets of an error, as ranges. -/
def CheckError.ranges {Name : Type} : CheckError Name → List ByteRange
  | .invertedBounds range _ _ | .notOneOperand range _ => [range]
  | .repeatedLabels range labels => range :: labels.map Spanned.range

/-- All the offsets of an error, as ranges. -/
def Error.ranges : Error → List ByteRange
  | .malformed error => error.ranges
  | .invalid error => error.ranges

/-- The part of a text that a range marks is a term alone, from the first byte to the last. -/
def Term.WrittenAt (source : String) (range : ByteRange) (term : Term String) : Prop :=
  ∃ text, slice? source range = some text ∧ Tree.parse text = .ok ⟨[term]⟩ ∧
    term.range = ⟨0, text.utf8ByteSize⟩

/-- What an error says about a text is what the text holds where the error points. -/
def ParseError.Agrees (source : String) : ParseError → Prop
  | .strayCharacter range => (Lexeme.stray range).StandsIn source
  | .unexpectedToken range found _ => slice? source range = some found.text
  | .unexpectedEnd position _ => position = source.utf8ByteSize
  | .unclosedParen opening endPosition =>
    slice? source opening = some "(" ∧ endPosition = source.utf8ByteSize
  | .unknownConstructor range name => slice? source range = some name
  | .integerTooLarge range =>
    ∃ digits, slice? source range = some digits ∧ (Token.number digits).Proper ∧
      UInt64.size ≤ Decimal.value digits
  | .nestingTooDeep range => slice? source range = some "Record"

/-- What an error says about a text is what the text holds where the error points. -/
def CheckError.Agrees (options : Options) (source : String) : CheckError String → Prop
  | .invertedBounds range lower upper =>
    upper < lower ∧ ∃ whole low high,
      (Term.var whole ⟨low, lower⟩ ⟨high, upper⟩).WrittenAt source range
  | .repeatedLabels range labels =>
    labels ≠ [] ∧
    (∀ label ∈ labels, range.start < label.range.start ∧ label.range.stop < range.stop ∧
      slice? source label.range = some label.value) ∧
    ∃ whole fields, (Term.record whole fields).WrittenAt source range ∧
      ∀ label ∈ labels, label.move (· - range.start) ∈ fields.map Prod.fst
  | .notOneOperand range count =>
    2 ≤ count ∧ ∃ whole members shape, (Term.group whole members).WrittenAt source range ∧
      Shape.resolve options ⟨members⟩ = .ok shape ∧ shape.operands.length = count

/-- What an error says about a text is what the text holds where the error points. -/
def Error.Agrees (options : Options) (source : String) : Error → Prop
  | .malformed error => error.Agrees source
  | .invalid error => error.Agrees options source

/-- The error and its report point into a text, and say what the text holds there. -/
structure Error.Located (options : Options) (source : String) (error : Error) : Prop where
  ranges : ∀ range ∈ error.ranges, range.Within source
  range : error.range.Within source
  labels : ∀ label ∈ error.diagnostic.labels, label.location.Within source
  /-- The report marks the cause. -/
  primary : ∃ label ∈ error.diagnostic.labels, label.role = .primary
  /-- The range of the error is marked in the report. -/
  marked : ∃ label ∈ error.diagnostic.labels, label.location = error.range
  agrees : error.Agrees options source

/-! ## Reports -/

namespace Error

variable {options : Options} {source : String} {error : Error}

/-- The range of an error is one of its ranges. -/
theorem range_mem_ranges (error : Error) : error.range ∈ error.ranges := by
  cases error with
  | malformed error => cases error <;> exact List.mem_cons_self
  | invalid error => cases error <;> exact List.mem_cons_self

/-- The labels of a report are at ranges of the error. -/
theorem location_mem_ranges (error : Error) :
    ∀ label ∈ error.diagnostic.labels, label.location ∈ error.ranges := by
  intro label hlabel
  cases error with
  | malformed error =>
      cases error with
      | unclosedParen opening endPosition =>
          rcases List.mem_cons.1 hlabel with rfl | hlabel
          · exact List.mem_cons_of_mem _ List.mem_cons_self
          · cases List.mem_singleton.1 hlabel
            exact List.mem_cons_self
      | _ =>
          cases List.mem_singleton.1 hlabel
          exact List.mem_cons_self
  | invalid error =>
      cases error with
      | repeatedLabels range labels =>
          rcases List.mem_append.1 hlabel with hlabel | hlabel
          · obtain ⟨repeated, hrepeated, rfl⟩ := List.mem_map.1 hlabel
            exact List.mem_cons_of_mem _ (List.mem_map_of_mem hrepeated)
          · cases List.mem_singleton.1 hlabel
            exact List.mem_cons_self
      | invertedBounds | notOneOperand =>
          cases List.mem_singleton.1 hlabel
          exact List.mem_cons_self

/-- A report marks the range of its error. -/
theorem exists_label_at_range (error : Error) :
    ∃ label ∈ error.diagnostic.labels, label.location = error.range := by
  cases error with
  | malformed error =>
      cases error with
      | unclosedParen opening endPosition =>
          exact ⟨_, List.mem_cons_of_mem _ List.mem_cons_self, rfl⟩
      | _ => exact ⟨_, List.mem_cons_self, rfl⟩
  | invalid error =>
      cases error with
      | repeatedLabels range labels =>
          exact ⟨_, List.mem_append_right _ List.mem_cons_self, rfl⟩
      | invertedBounds | notOneOperand => exact ⟨_, List.mem_cons_self, rfl⟩

/-- What agrees with a text points into it. -/
theorem Agrees.within (h : error.Agrees options source) :
    ∀ range ∈ error.ranges, range.Within source := by
  cases error with
  | malformed error =>
      cases error with
      | strayCharacter range =>
          obtain ⟨c, hslice, -, -⟩ := h
          exact List.forall_mem_singleton.2 (within_of_slice? hslice)
      | unexpectedToken | unknownConstructor | nestingTooDeep =>
          exact List.forall_mem_singleton.2 (within_of_slice? h)
      | unexpectedEnd position =>
          cases h
          exact List.forall_mem_singleton.2 (within_end source)
      | unclosedParen opening endPosition =>
          obtain ⟨hslice, rfl⟩ := h
          exact List.forall_mem_cons.2
            ⟨within_of_slice? hslice, List.forall_mem_singleton.2 (within_end source)⟩
      | integerTooLarge range =>
          obtain ⟨digits, hslice, -, -⟩ := h
          exact List.forall_mem_singleton.2 (within_of_slice? hslice)
  | invalid error =>
      cases error with
      | invertedBounds range lower upper =>
          obtain ⟨-, whole, low, high, text, hslice, -⟩ := h
          exact List.forall_mem_singleton.2 (within_of_slice? hslice)
      | repeatedLabels range labels =>
          obtain ⟨-, hlabels, whole, fields, ⟨text, hslice, -⟩, -⟩ := h
          exact List.forall_mem_cons.2 ⟨within_of_slice? hslice, List.forall_mem_map.2
            fun label hlabel => within_of_slice? (hlabels label hlabel).2.2⟩
      | notOneOperand range count =>
          obtain ⟨-, whole, members, shape, ⟨text, hslice, -⟩, -⟩ := h
          exact List.forall_mem_singleton.2 (within_of_slice? hslice)

/-- What agrees with a text marks the cause in its report. -/
theorem Agrees.exists_primary (h : error.Agrees options source) :
    ∃ label ∈ error.diagnostic.labels, label.role = .primary := by
  cases error with
  | malformed error => cases error <;> exact ⟨_, List.mem_cons_self, rfl⟩
  | invalid error =>
      cases error with
      | repeatedLabels range labels =>
          cases labels with
          | nil => exact absurd rfl h.1
          | cons label rest => exact ⟨_, List.mem_cons_self, rfl⟩
      | invertedBounds | notOneOperand => exact ⟨_, List.mem_cons_self, rfl⟩

/-- An error that agrees with a text is located in it. -/
theorem Agrees.located (h : error.Agrees options source) : error.Located options source where
  ranges := h.within
  range := h.within _ error.range_mem_ranges
  labels := fun label hlabel => h.within _ (error.location_mem_ranges label hlabel)
  primary := h.exists_primary
  marked := error.exists_label_at_range
  agrees := h

end Error

/-! ## Texts that are not well formed -/

section Malformed

variable {source : String}

/-- A parenthesis that is still open behind tokens is one of them. -/
theorem Token.openParen_mem_of_unclosedBehind (tokens : List (Spanned Token)) :
    ∀ unclosed ∈ unclosedBehind tokens, ⟨unclosed.opening, .openParen⟩ ∈ tokens := by
  induction tokens with
  | nil =>
      intro unclosed h
      cases h
  | cons found before ih =>
      obtain ⟨range, token⟩ := found
      intro unclosed h
      cases token with
      | openParen =>
          rcases List.mem_cons.1 h with rfl | h
          · exact List.mem_cons_self
          · exact List.mem_cons_of_mem _ (ih unclosed h)
      | closeParen => exact List.mem_cons_of_mem _ (ih unclosed (List.mem_of_mem_tail h))
      | _ => exact List.mem_cons_of_mem _ (ih unclosed h)

/-- The first error of a text agrees with it. -/
theorem FirstError.agrees {front : List (Spanned Token)} {tail : List Lexeme} {error : ParseError}
    (hsplit : Lexeme.ofText source = front.map Spanned.lexeme ++ tail)
    (h : FirstError source.utf8ByteSize front tail error) : error.Agrees source := by
  have hfront : ∀ found ∈ front, slice? source found.range = some found.value.text := by
    intro found hfound
    have hmem : found.lexeme ∈ Lexeme.ofText source := by
      rw [hsplit]
      exact List.mem_append_left _ (List.mem_map_of_mem hfound)
    exact (Lexeme.slice?_of_mem hmem).2
  have htail : ∀ item ∈ tail, item ∈ Lexeme.ofText source := fun item hitem => by
    rw [hsplit]
    exact List.mem_append_right _ hitem
  cases h with
  | strayCharacter range rest =>
      exact (Lexer.tokenizes_ofText source).standing _ (htail _ List.mem_cons_self)
  | unknownConstructor found name rest hcalls =>
      obtain ⟨-, before, rfl, -⟩ := hcalls
      exact hfront ⟨name.range, .name name.value⟩ (by simp)
  | integerTooLarge found rest hlarge =>
      obtain ⟨digits, hdigits, hvalue, -⟩ := hlarge
      obtain ⟨hproper, hslice⟩ := Lexeme.slice?_of_mem (htail found.lexeme List.mem_cons_self)
      rw [hdigits] at hproper hslice
      exact ⟨digits, hslice, hproper, hvalue⟩
  | nestingTooDeep found rest hdeep =>
      obtain ⟨-, hslice⟩ := Lexeme.slice?_of_mem (htail found.lexeme List.mem_cons_self)
      rw [hdeep.1] at hslice
      exact hslice
  | unexpectedToken found rest expected =>
      exact (Lexeme.slice?_of_mem (htail found.lexeme List.mem_cons_self)).2
  | unclosedParen innermost outer hunclosed =>
      have hinner : innermost ∈ Token.unclosedBehind front.reverse := by
        rw [show Token.unclosedBehind front.reverse = _ from hunclosed]
        exact List.mem_cons_self
      have hmem := Token.openParen_mem_of_unclosedBehind front.reverse innermost hinner
      exact ⟨hfront _ (List.mem_reverse.1 hmem), rfl⟩
  | unexpectedEnd => rfl

/-- The error of a text that is not well formed agrees with it. -/
theorem Tree.agrees_of_parse {error : ParseError} (h : Tree.parse source = .error error) :
    error.Agrees source := by
  obtain ⟨front, tail, hlongest⟩ := exists_longest source
  obtain ⟨state, hleads, hcases⟩ := hlongest.error_cases h
  have hfirst : FirstError source.utf8ByteSize front tail error := by
    rcases hcases with ⟨rfl, hfinish⟩ | ⟨range, rest, rfl, rfl⟩ | ⟨found, rest, rfl, hfollow, rfl⟩
    · exact firstError_finish hleads hfinish
    · exact .strayCharacter range rest
    · exact firstError_rejection hleads hfollow rest
  exact hfirst.agrees hlongest.split

end Malformed

/-! ## Texts that describe no valid shape -/

section Invalid

variable {options : Options} {source : String}

/-- An operand within the items of a text is written where the range of its term is. -/
theorem Grammar.Phrase.writtenAt {phrase : Phrase}
    (hwithin : phrase.lexemes <:+: Lexeme.ofText source)
    (hfits : ∀ item ∈ phrase.lexemes, item.Fits) (hdepth : phrase.depth ≤ maxRecordDepth) :
    (phrase.term.move (· - phrase.term.range.start)).WrittenAt source phrase.term.range := by
  obtain ⟨text, hslice, hparse⟩ := phrase.parse_slice hwithin hfits hdepth
  refine ⟨text, hslice, hparse, ?_⟩
  rw [Term.range_move, ← size_of_slice? hslice, ByteRange.move, Nat.sub_self]

/-- The error of a term at fault that is derived from items of a text agrees with the text. -/
theorem Shape.Faulty.agrees {phrase : Phrase} {error : CheckError String}
    (h : Faulty options Operand.ofName phrase.term error)
    (hwithin : phrase.lexemes <:+: Lexeme.ofText source)
    (hfits : ∀ item ∈ phrase.lexemes, item.Fits) (hdepth : phrase.depth ≤ maxRecordDepth) :
    error.Agrees options source := by
  have hwritten := phrase.writtenAt hwithin hfits hdepth
  have hexact := phrase.exactIn hwithin hfits hdepth
  generalize hterm : phrase.term = term at h hwritten hexact
  cases h with
  | invertedBounds range lower upper hvalidate hlt => exact ⟨hlt, _, _, _, hwritten⟩
  | repeatedLabels range fields hallow hrepeats =>
      have hlabels : ∀ label ∈ repeats fields, label ∈ fields.map Prod.fst :=
        fun label hlabel => (repeatsAfter_sublist [] _).subset hlabel
      refine ⟨hrepeats, fun label hlabel => ?_, _, _, hwritten, fun label hlabel => ?_⟩
      · obtain ⟨field, hfield, rfl⟩ := List.mem_map.1 (hlabels label hlabel)
        have hchild : field.1.range ∈ (Term.record range fields).children :=
          List.mem_flatMap.2 ⟨field, hfield, List.mem_cons_self⟩
        obtain ⟨hstart, -, hstop⟩ := hexact.inside _ hchild
        exact ⟨hstart, hstop, hexact.labels _ (List.mem_map_of_mem hfield)⟩
      · rw [Term.map_fst_moveFields]
        exact List.mem_map_of_mem (hlabels label hlabel)
  | notOneOperand range members operands hmembers hlength =>
      have hflatten : flatten options Operand.ofName phrase.term = .ok operands := by
        rw [hterm, flatten]
        exact hmembers
      have hproper : ∀ item ∈ phrase.lexemes, item.Proper :=
        fun item hitem => Lexeme.proper_of_mem_ofText (hwithin.subset hitem)
      have hrelaxed := ((flatten_ok_iff (Operand.passes_ofName options) _ _).1 hflatten).1
      have hpos := List.length_pos_iff.2 (writable_of_flatten phrase hproper operands hrelaxed).1
      refine ⟨by omega, _, _, ⟨operands⟩, hwritten, ?_, rfl⟩
      rw [resolve, ofTree_eq, flattenAll_move, hmembers]
      rfl

/-- The error of a text that describes no valid shape agrees with it. -/
theorem Shape.agrees_of_resolve {tree : Tree String} {error : CheckError String}
    (htree : Tree.parse source = .ok tree) (h : resolve options tree = .error error) :
    error.Agrees options source := by
  obtain ⟨phrases, hitems, hfits, hdepth, hterms⟩ := ofLexemes_eq_ok_iff.1 htree
  rw [resolve, ofTree_eq, hterms] at h
  obtain ⟨part, hpart, hfaulty⟩ := exists_faulty_of_flattenAll _ (map_eq_error h)
  obtain ⟨phrase, rfl, hwithin, hle⟩ := phrases.exists_part part hpart
  rw [hitems] at hwithin
  exact hfaulty.agrees hwithin (fun item hitem => hfits item (hwithin.subset hitem))
    (Nat.le_trans hle hdepth)

end Invalid

namespace Shape

variable {options : Options} {source : String}

/-- Every error points into its text. All its offsets, and those of its report, are in order and
between characters of the text. The report marks a cause and the range of the error. What the error
says about the text is what the text holds where the error points: the token, the name, the open
parenthesis, the digits, the range with its bounds, the record with its repeated labels, or the
group with its number of operands. -/
theorem located_of_parse {error : Error} (h : parse options source = .error error) :
    error.Located options source := by
  refine Error.Agrees.located ?_
  unfold parse at h
  split at h
  · next found htree =>
      cases h
      exact Tree.agrees_of_parse htree
  · next tree htree =>
      split at h
      · next found hfound =>
          cases h
          exact agrees_of_resolve htree hfound
      · cases h

/-- The type of a field with two operands, behind a blank that takes three bytes. -/
theorem located_of_parse_twoOperands :
    parse {} "\u3000Record(x=(3,N))" = .error (.invalid (.notOneOperand ⟨12, 17⟩ 2)) ∧
      (Error.invalid (.notOneOperand ⟨12, 17⟩ 2)).Located {} "\u3000Record(x=(3,N))" ∧
      Text.slice? "\u3000Record(x=(3,N))" ⟨12, 17⟩ = some "(3,N)" := by
  have hitems : Lexeme.ofText "\u3000Record(x=(3,N))" =
      [.token (.keyword .record) ⟨3, 9⟩, .token .openParen ⟨9, 10⟩, .token (.name "x") ⟨10, 11⟩,
        .token .equals ⟨11, 12⟩, .token .openParen ⟨12, 13⟩, .token (.number "3") ⟨13, 14⟩,
        .token .comma ⟨14, 15⟩, .token (.name "N") ⟨15, 16⟩, .token .closeParen ⟨16, 17⟩,
        .token .closeParen ⟨17, 18⟩] := by
    decide +kernel
  have htree : Tree.parse "\u3000Record(x=(3,N))" =
      .ok ⟨[.record ⟨3, 18⟩ [(⟨⟨10, 11⟩, "x"⟩,
        .group ⟨12, 17⟩ [.number ⟨13, 14⟩ 3, .name ⟨15, 16⟩ "N"])]]⟩ := by
    rw [Tree.parse, hitems]
    rfl
  have hparse : parse {} "\u3000Record(x=(3,N))" =
      .error (.invalid (.notOneOperand ⟨12, 17⟩ 2)) := by
    rw [parse, htree]
    simp only [resolve, ofTree_eq]
    rfl
  exact ⟨hparse, located_of_parse hparse, by decide +kernel⟩

end Shape

end ArrayShape
