import ArrayShape.Proofs.Derivations
import ArrayShape.Proofs.Reading
import ArrayShape.Proofs.Runs

/-!
# The ranges of a tree

Every term of a tree that was read stands for a run of the items of the text. Its range covers
exactly this run, the ranges inside it cover runs of it that follow each other, and the part of the
text that it marks reads as the term alone, with the offsets counted from its start.
-/

namespace ArrayShape

namespace Grammar

open ArrayShape.Parser (Call)

/-! ## The ranges of a derivation -/

/-- From a keyword to the parenthesis that closes its arguments. -/
theorem covers_wrap {reserved : Keyword} {call : Call} {arguments : List Lexeme}
    {closing : ByteRange} (h : Lexeme.Ordered (wrap reserved call arguments closing)) :
    (call.keyword.merge closing).Covers (wrap reserved call arguments closing) := by
  rw [wrap, ← List.cons_append] at h ⊢
  exact .merge h

/-- The range of the term of an operand covers its items. -/
theorem Phrase.covers (phrase : Phrase) (h : Lexeme.Ordered phrase.lexemes) :
    phrase.term.range.Covers phrase.lexemes := by
  cases phrase with
  | number digits => exact .single (numeral digits)
  | name text => exact .single (.token (.name text.value) text.range)
  | record call fields closing => exact covers_wrap h
  | enum call values closing => exact covers_wrap h
  | var call lower comma upper closing => exact covers_wrap h
  | group opening members closing => exact .merge h

/-- The ranges of the words of numerals cover the numerals. -/
theorem NumeralList.coverRuns (values : NumeralList) :
    ByteRange.CoverRuns (values.words.map Spanned.range) values.lexemes := by
  induction values with
  | last digits => exact .last (.single (numeral digits))
  | more digits comma rest ih => exact .more (.single (numeral digits)) ih

/-- The ranges of the terms of a list of operands cover the operands. -/
theorem PhraseList.coverRuns (phrases : PhraseList) (h : Lexeme.Ordered phrases.lexemes) :
    ByteRange.CoverRuns (phrases.terms.map Term.range) phrases.lexemes := by
  cases phrases with
  | last operand => exact .last (operand.covers h)
  | more operand comma rest =>
      have hoperand := h.sublist (List.sublist_append_left _ _)
      have hrest := h.sublist
        ((List.sublist_cons_self _ rest.lexemes).trans (List.sublist_append_right _ _))
      exact .more (operand.covers hoperand) (rest.coverRuns hrest)

/-- The ranges of labels and types cover the labels and types. -/
theorem FieldList.coverRuns (fields : FieldList) (h : Lexeme.Ordered fields.lexemes) :
    ByteRange.CoverRuns (fields.terms.flatMap Term.fieldRanges) fields.lexemes := by
  cases fields with
  | last label equals type =>
      have htype := h.sublist ((List.sublist_cons_self _ _).trans (List.sublist_cons_self _ _))
      exact .more (.single (.token label.value.token label.range))
        (.last (type.covers htype))
  | more label equals type comma rest =>
      have hbehind : Lexeme.Ordered (type.lexemes ++ .token .comma comma :: rest.lexemes) :=
        h.sublist ((List.sublist_cons_self _ _).trans (List.sublist_cons_self _ _))
      have htype := hbehind.sublist (List.sublist_append_left _ _)
      have hrest := hbehind.sublist
        ((List.sublist_cons_self _ rest.lexemes).trans (List.sublist_append_right _ _))
      show ByteRange.CoverRuns _ ([.token label.value.token label.range] ++
        .token .equals equals :: (type.lexemes ++ .token .comma comma :: rest.lexemes))
      exact .more (.single (.token label.value.token label.range))
        (.more (type.covers htype) (rest.coverRuns hrest))

/-- The ranges directly inside the term of an operand cover runs of items between its first item and
its last. -/
theorem Phrase.children_coverRuns (phrase : Phrase) (h : Lexeme.Ordered phrase.lexemes) :
    phrase.term.children = [] ∨ ∃ first opening inner last,
      phrase.lexemes = first :: (opening ++ (inner ++ [last])) ∧
        ByteRange.CoverRuns phrase.term.children inner := by
  cases phrase with
  | number digits => exact .inl rfl
  | name text => exact .inl rfl
  | record call fields closing =>
      exact .inr ⟨_, [.token .openParen call.opening], fields.lexemes, _, rfl,
        fields.coverRuns (h.inner [.token .openParen call.opening])⟩
  | enum call values closing =>
      exact .inr ⟨_, [.token .openParen call.opening], values.lexemes, _, rfl, values.coverRuns⟩
  | var call lower comma upper closing =>
      exact .inr ⟨_, [.token .openParen call.opening],
        [numeral lower] ++ .token .comma comma :: [numeral upper], _, rfl,
        .more (.single (numeral lower)) (.last (.single (numeral upper)))⟩
  | group opening members closing =>
      exact .inr ⟨_, [], members.lexemes, _, rfl,
        members.coverRuns (h.inner [])⟩

/-- The ranges directly inside the term of an operand lie strictly inside its range. -/
theorem Phrase.children_inside (phrase : Phrase) (h : Lexeme.Ordered phrase.lexemes) :
    ∀ child ∈ phrase.term.children, phrase.term.range.start < child.start ∧
      child.start < child.stop ∧ child.stop < phrase.term.range.stop := by
  intro child hchild
  obtain hnone | ⟨first, opening, inner, last, hlexemes, hruns⟩ := phrase.children_coverRuns h
  · rw [hnone] at hchild
    cases hchild
  · obtain ⟨head, final, hhead, hfinal, hrange⟩ := phrase.covers h
    rw [hlexemes] at h hhead hfinal
    rw [← List.append_assoc, ← List.cons_append, List.getLast?_concat] at hfinal
    cases hhead
    cases hfinal
    have htail : Lexeme.Ordered (inner ++ [last]) :=
      h.sublist ((List.sublist_append_right opening _).trans (List.sublist_cons_self first _))
    have hinner := htail.sublist (List.sublist_append_left inner _)
    obtain ⟨hpos, ⟨item, hitem, hstart⟩, item', hitem', hstop⟩ := hruns.bounds hinner child hchild
    -- The first and the last item take a byte each, so that what lies between them is inside.
    have hfirst := h.nonempty first List.mem_cons_self
    have hbehind := h.head_stop_le
      (List.mem_append_right opening (List.mem_append_left [last] hitem))
    have hbefore := htail.stop_le_start hitem' List.mem_cons_self
    have hlast := htail.nonempty last (List.mem_append_right inner List.mem_cons_self)
    rw [hrange]
    dsimp only
    omega

/-- The ranges directly inside the term of an operand follow each other. -/
theorem Phrase.children_pairwise (phrase : Phrase) (h : Lexeme.Ordered phrase.lexemes) :
    phrase.term.children.Pairwise fun earlier later => earlier.stop < later.start := by
  obtain hnone | ⟨first, opening, inner, last, hlexemes, hruns⟩ := phrase.children_coverRuns h
  · rw [hnone]
    exact .nil
  · rw [hlexemes] at h
    exact hruns.pairwise (h.inner opening)

end Grammar

/-! ## Terms in their text -/

open Grammar Text

/-- The range of a term and the ranges inside it are exact. -/
structure Term.ExactIn (source : String) (term : Term String) : Prop where
  /-- The range goes from the first to the last of the items from which the grammar derives the
  term: a name or a number alone, a keyword with its arguments up to the closing parenthesis, or a
  group from its opening to its closing parenthesis. -/
  items : ∃ phrase : Phrase, phrase.term = term ∧ phrase.lexemes <:+: Lexeme.ofText source ∧
    term.range.Covers phrase.lexemes
  inside : ∀ child ∈ term.children, term.range.start < child.start ∧ child.start < child.stop ∧
    child.stop < term.range.stop
  disjoint : term.children.Pairwise fun earlier later => earlier.stop < later.start
  labels : ∀ label ∈ term.labels, slice? source label.range = some label.value
  numbers : ∀ number ∈ term.numbers, ∃ digits, slice? source number.range = some digits ∧
    (Token.number digits).Proper ∧ Decimal.value digits = number.value.toNat
  /-- The part of the text that the range marks reads as the term alone, with the offsets counted
  from its start. -/
  alone : ∃ text, slice? source term.range = some text ∧
    Tree.parse text = .ok ⟨[term.move (· - term.range.start)]⟩

/-- An item of a text that is a token is a proper token, written where the item is. -/
theorem Lexeme.slice?_of_mem {source : String} {found : Token} {range : ByteRange}
    (h : .token found range ∈ ofText source) :
    found.Proper ∧ slice? source range = some found.text := by
  have hstands := (Lexer.tokenizes_ofText source).standing _ h
  exact ⟨hstands.proper, hstands.text⟩

/-- An operand within the items of a text reads alone from the part of the text that the range of
its term marks. -/
theorem Grammar.Phrase.parse_slice {source : String} {phrase : Phrase}
    (hwithin : phrase.lexemes <:+: Lexeme.ofText source)
    (hfits : ∀ item ∈ phrase.lexemes, item.Fits) (hdepth : phrase.depth ≤ maxRecordDepth) :
    ∃ text, slice? source phrase.term.range = some text ∧
      Tree.parse text = .ok ⟨[phrase.term.move (· - phrase.term.range.start)]⟩ := by
  have hordered := (Lexeme.ordered_ofText source).sublist hwithin.sublist
  obtain ⟨first, last, hfirst, hlast, hrange⟩ := phrase.covers hordered
  obtain ⟨before, behind, hsource⟩ := hwithin
  rw [List.append_assoc] at hsource
  obtain ⟨text, hslice, htext⟩ := Lexeme.ofText_between hsource.symm hfirst hlast
  have hkeeps : ByteRange.KeepsOrder (· - first.range.start) := fun _ _ h =>
    Nat.sub_le_sub_right h _
  obtain ⟨moved, hlexemes, hterm, hmoved⟩ := phrase.exists_move hkeeps
  rw [hrange]
  refine ⟨text, hslice, ofLexemes_eq_ok_iff.2 ⟨.last moved, ?_, fun item hitem => ?_, ?_, ?_⟩⟩
  · rw [htext, PhraseList.lexemes, hlexemes]
  · rw [htext] at hitem
    obtain ⟨original, horiginal, rfl⟩ := List.mem_map.1 hitem
    exact fits_move.2 (hfits original horiginal)
  · rw [PhraseList.depth, hmoved]
    exact hdepth
  · rw [PhraseList.terms, hterm]

/-- The term of an operand within the items of a text has an exact range. -/
theorem Grammar.Phrase.exactIn {source : String} {phrase : Phrase}
    (hwithin : phrase.lexemes <:+: Lexeme.ofText source)
    (hfits : ∀ item ∈ phrase.lexemes, item.Fits) (hdepth : phrase.depth ≤ maxRecordDepth) :
    phrase.term.ExactIn source := by
  have hordered := (Lexeme.ordered_ofText source).sublist hwithin.sublist
  refine ⟨⟨phrase, rfl, hwithin, phrase.covers hordered⟩, phrase.children_inside hordered,
    phrase.children_pairwise hordered, fun label hlabel => ?_, fun number hnumber => ?_,
    phrase.parse_slice hwithin hfits hdepth⟩
  · obtain ⟨token, htoken, htext⟩ := phrase.exists_label label hlabel
    rw [← htext]
    exact (Lexeme.slice?_of_mem (hwithin.subset htoken)).2
  · obtain ⟨digits, rfl, hdigits⟩ := phrase.exists_numeral number hnumber
    obtain ⟨hproper, hslice⟩ := Lexeme.slice?_of_mem (hwithin.subset hdigits)
    exact ⟨digits.value, hslice, hproper, (UInt64.toNat_ofNat_of_lt' (hfits _ hdigits)).symm⟩

/-- Every term of a tree that was read has an exact range, its operands follow each other, and its
range goes from the start of the first operand to the end of the last. -/
theorem Tree.exact_of_parse {source : String} {tree : Tree String}
    (h : Tree.parse source = .ok tree) :
    (∀ term ∈ tree.parts, term.ExactIn source) ∧
    ((tree.terms.map Term.range).Pairwise fun earlier later => earlier.stop < later.start) ∧
    ∃ first last, tree.terms.head? = some first ∧ tree.terms.getLast? = some last ∧
      tree.range = ⟨first.range.start, last.range.stop⟩ := by
  obtain ⟨phrases, hitems, hfits, hdepth, hterms⟩ := ofLexemes_eq_ok_iff.1 h
  have hordered := Lexeme.ordered_ofText source
  rw [← hitems] at hordered hfits
  have hruns := phrases.coverRuns hordered
  have hfollows := hruns.pairwise hordered
  refine ⟨fun term hterm => ?_, hterms ▸ hfollows, ?_⟩
  · rw [Tree.parts, hterms] at hterm
    obtain ⟨part, rfl, hwithin, hle⟩ := phrases.exists_part term hterm
    exact Phrase.exactIn (hitems ▸ hwithin) (fun item hitem => hfits item (hwithin.subset hitem))
      (Nat.le_trans hle hdepth)
  · obtain ⟨first, rest, hcons⟩ : ∃ first rest, phrases.terms = first :: rest := by
      cases phrases <;> exact ⟨_, _, rfl⟩
    rw [hcons] at hruns hfollows hterms
    have hrange : tree.range = (rest.map Term.range).foldl ByteRange.merge first.range := by
      simp only [Tree.range, hterms, List.foldl_map]
    have hmerge := ByteRange.foldl_merge
      (fun range hmem => (hruns.bounds hordered range hmem).1) hfollows
    refine ⟨first, (first :: rest).getLast (List.cons_ne_nil _ _), by rw [hterms]; rfl,
      by rw [hterms]; exact List.getLast?_eq_some_getLast _, ?_⟩
    rw [hrange, hmerge, ByteRange.mk.injEq]
    refine ⟨rfl, congrArg ByteRange.stop ?_⟩
    exact List.getLast_map (l := first :: rest) (f := Term.range) (List.cons_ne_nil _ _)

/-- The term of `Enum(07)` from a byte offset on. -/
def Term.enumOfSeven (start : Nat) : Term String :=
  .enum ⟨start, start + 8⟩ [⟨⟨start + 5, start + 7⟩, 7⟩]

/-- An enumeration in a group stands at its place, and reads alone from the beginning of a text. -/
theorem Tree.exact_of_parse_enumOfSeven :
    Tree.parse "(x, Enum(07))" = .ok ⟨[.group ⟨0, 13⟩ [.name ⟨1, 2⟩ "x", .enumOfSeven 4]]⟩ ∧
      (Term.enumOfSeven 4).ExactIn "(x, Enum(07))" ∧
      Tree.parse "Enum(07)" = .ok ⟨[.enumOfSeven 0]⟩ := by
  have hitems : Lexeme.ofText "(x, Enum(07))" =
      [.token .openParen ⟨0, 1⟩, .token (.name "x") ⟨1, 2⟩, .token .comma ⟨2, 3⟩,
        .token (.keyword .enum) ⟨4, 8⟩, .token .openParen ⟨8, 9⟩, .token (.number "07") ⟨9, 11⟩,
        .token .closeParen ⟨11, 12⟩, .token .closeParen ⟨12, 13⟩] := by
    decide +kernel
  have hparse : Tree.parse "(x, Enum(07))" =
      .ok ⟨[.group ⟨0, 13⟩ [.name ⟨1, 2⟩ "x", .enumOfSeven 4]]⟩ := by
    rw [Tree.parse, hitems]
    rfl
  have hexact : (Term.enumOfSeven 4).ExactIn "(x, Enum(07))" :=
    (Tree.exact_of_parse hparse).1 _ (by simp [Tree.parts, Term.membersParts, Term.parts,
      Term.enumOfSeven])
  obtain ⟨text, hslice, halone⟩ := hexact.alone
  have htext : slice? "(x, Enum(07))" ⟨4, 12⟩ = some "Enum(07)" := by decide +kernel
  cases Option.some.inj (hslice.symm.trans htext)
  exact ⟨hparse, hexact, halone⟩

end ArrayShape
