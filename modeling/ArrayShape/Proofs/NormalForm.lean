import ArrayShape.Proofs.Description

/-!
# The tokens of the printed form, from the tokens of the text

`normalForm` rewrites the tokens of a text from left to right, without a tree: it drops the
parentheses of groups, writes numerals without leading zeros, and writes a name that is no label as
the type that it stands for. The tokens of the printed form of a shape are the rewritten tokens of
the text that it was read from (`tokens_eq_normalForm`). The proof goes through the derivation of
the text, whose rewritten tokens are found by recursion (`rewrite_phrase`) and are those of the
operands that it describes (`normal_eq_tokens`).
-/

namespace ArrayShape

namespace Token

/-- The tokens that a name is printed as: the canonical name of an element type, the printed form of
a composite type, or the name itself. -/
def expand (name : String) : List Token :=
  match DType.ofName? name with
  | some scalar => [.name scalar.name]
  | none =>
    match Operand.ofTypeName? name with
    | some type => ofText type.text
    | none => [.name name]

/-- The numeral with the value of a run of digits and without leading zeros. -/
def canonical (digits : String) : Token :=
  .number (Nat.repr (Decimal.value digits))

/-- Rewrites tokens from left to right. For each parenthesis that is open, the innermost first, it
is known whether it was kept. An opening parenthesis is kept right behind a keyword. -/
def rewrite (kept : List Bool) (behindKeyword : Bool) : List Token → List Token
  | [] => []
  | .openParen :: rest =>
    if behindKeyword then .openParen :: rewrite (true :: kept) false rest
    else rewrite (false :: kept) false rest
  | .closeParen :: rest =>
    match kept with
    | false :: outer => rewrite outer false rest
    | true :: outer => .closeParen :: rewrite outer false rest
    | [] => .closeParen :: rewrite [] false rest
  | .number digits :: rest => canonical digits :: rewrite kept false rest
  | .name text :: rest =>
    if rest.head? = some .equals then .name text :: rewrite kept false rest
    else expand text ++ rewrite kept false rest
  | .keyword reserved :: rest => .keyword reserved :: rewrite kept true rest
  | .comma :: rest => .comma :: rewrite kept false rest
  | .equals :: rest => .equals :: rewrite kept false rest

/-- The normal form of the tokens of a whole text. -/
def normalForm (tokens : List Token) : List Token :=
  rewrite [] false tokens

end Token

namespace Grammar

open Token (rewrite canonical expand)
open Operand (joined callTokens)

/-! ## The normal form of a derivation -/

/-- The normal forms of numerals. -/
def NumeralList.normals : NumeralList → List (List Token)
  | .last digits => [[canonical digits.value]]
  | .more digits _ rest => [canonical digits.value] :: rest.normals

mutual
/-- The normal form of an operand. -/
def Phrase.normal : Phrase → List Token
  | .number digits => [canonical digits.value]
  | .name text => expand text.value
  | .record _ fields _ => callTokens .record fields.normals
  | .enum _ values _ => callTokens .enum values.normals
  | .var _ lower _ upper _ => callTokens .var [[canonical lower.value], [canonical upper.value]]
  | .group _ members _ => joined members.normals

/-- The normal forms of operands. -/
def PhraseList.normals : PhraseList → List (List Token)
  | .last operand => [operand.normal]
  | .more operand _ rest => operand.normal :: rest.normals

/-- The normal forms of fields. -/
def FieldList.normals : FieldList → List (List Token)
  | .last label _ type => [label.value.token :: .equals :: type.normal]
  | .more label _ type _ rest => (label.value.token :: .equals :: type.normal) :: rest.normals
end

/-- A list of numerals has a first normal form. -/
theorem NumeralList.normals_ne_nil (values : NumeralList) : values.normals ≠ [] := by
  cases values <;> simp [normals]

/-- A list of operands has a first normal form. -/
theorem PhraseList.normals_ne_nil (phrases : PhraseList) : phrases.normals ≠ [] := by
  cases phrases <;> simp [normals]

/-- A list of fields has a first normal form. -/
theorem FieldList.normals_ne_nil (fields : FieldList) : fields.normals ≠ [] := by
  cases fields <;> simp [normals]

/-- The tokens of items. -/
def carried (items : List Lexeme) : List Token :=
  items.filterMap Lexeme.token?

@[simp] theorem carried_nil : carried [] = [] := rfl

@[simp] theorem carried_token (found : Token) (range : ByteRange) (rest : List Lexeme) :
    carried (.token found range :: rest) = found :: carried rest := rfl

@[simp] theorem carried_append (first second : List Lexeme) :
    carried (first ++ second) = carried first ++ carried second :=
  List.filterMap_append

/-! ## Rewriting the tokens of a derivation -/

variable {kept : List Bool} {rest : List Token}

/-- Tokens that may follow an operand: they do not begin with an equals sign. -/
def Follows (tokens : List Token) : Prop :=
  tokens.head? ≠ some .equals

/-- A call keeps its parentheses, and its arguments are rewritten inside them. -/
theorem rewrite_wrap {reserved : Keyword} {call : Parser.Call} {inner : List Lexeme}
    {closing : ByteRange} {arguments : List (List Token)}
    (h : rewrite (true :: kept) false (carried inner ++ .closeParen :: rest) =
      joined arguments ++ rewrite (true :: kept) false (.closeParen :: rest)) :
    rewrite kept false (carried (wrap reserved call inner closing) ++ rest) =
      callTokens reserved arguments ++ rewrite kept false rest := by
  simp only [wrap, carried_token, carried_append, carried_nil, List.cons_append,
    List.append_assoc, List.nil_append, rewrite, if_true, h, callTokens]

/-- Numerals are rewritten one after another. -/
theorem rewrite_numerals (values : NumeralList) (kept : List Bool) (rest : List Token) :
    rewrite kept false (carried values.lexemes ++ rest) =
      joined values.normals ++ rewrite kept false rest := by
  induction values with
  | last digits => simp [NumeralList.lexemes, numeral, NumeralList.normals, rewrite]
  | more digits comma tail ih =>
      simp [NumeralList.lexemes, numeral, NumeralList.normals, rewrite, ih,
        Operand.joined_cons tail.normals_ne_nil]

/-- A label and its equals sign are kept. -/
theorem rewrite_labelled (label : Spanned Label) (equals : ByteRange) (type : List Lexeme) :
    rewrite kept false (carried (labelled label equals type) ++ rest) =
      label.value.token :: .equals :: rewrite kept false (carried type ++ rest) := by
  obtain ⟨range, label⟩ := label
  cases label <;> simp [labelled, Label.token, rewrite]

mutual
/-- The tokens of an operand are rewritten to its normal form, whatever follows. -/
theorem rewrite_phrase (phrase : Phrase) (kept : List Bool) (rest : List Token)
    (hrest : Follows rest) :
    rewrite kept false (carried phrase.lexemes ++ rest) =
      phrase.normal ++ rewrite kept false rest := by
  cases phrase with
  | number digits => simp [Phrase.lexemes, numeral, Phrase.normal, rewrite]
  | name text =>
      simp only [Phrase.lexemes, carried_token, carried_nil, List.singleton_append, rewrite,
        Phrase.normal]
      -- No equals sign follows, so the name is no label.
      rw [if_neg hrest]
  | record call fields closing =>
      show rewrite kept false (carried (wrap .record call fields.lexemes closing) ++ rest) =
        callTokens .record fields.normals ++ rewrite kept false rest
      exact rewrite_wrap (rewrite_fields fields (true :: kept) _ nofun)
  | enum call values closing =>
      show rewrite kept false (carried (wrap .enum call values.lexemes closing) ++ rest) =
        callTokens .enum values.normals ++ rewrite kept false rest
      exact rewrite_wrap (rewrite_numerals values (true :: kept) _)
  | var call lower comma upper closing =>
      refine rewrite_wrap ?_
      simp [numeral, rewrite]
  | group opening members closing =>
      -- The parenthesis is dropped, and remembered as dropped until its partner is reached.
      have hmembers := rewrite_members members (false :: kept) (.closeParen :: rest) nofun
      simp only [Phrase.lexemes, carried_token, carried_append, carried_nil, List.cons_append,
        List.append_assoc, List.nil_append, rewrite, hmembers, Phrase.normal]
      rfl

/-- The tokens of operands are rewritten to their normal forms, with the commas kept. -/
theorem rewrite_members (members : PhraseList) (kept : List Bool) (rest : List Token)
    (hrest : Follows rest) :
    rewrite kept false (carried members.lexemes ++ rest) =
      joined members.normals ++ rewrite kept false rest := by
  cases members with
  | last operand =>
      rw [PhraseList.lexemes, rewrite_phrase operand kept rest hrest]
      simp [PhraseList.normals]
  | more operand comma tail =>
      have hoperand := rewrite_phrase operand kept (.comma :: (carried tail.lexemes ++ rest)) nofun
      simp [PhraseList.lexemes, PhraseList.normals, hoperand, rewrite,
        rewrite_members tail kept rest hrest, Operand.joined_cons tail.normals_ne_nil]

/-- The tokens of fields are rewritten to their normal forms, with labels and commas kept. -/
theorem rewrite_fields (fields : FieldList) (kept : List Bool) (rest : List Token)
    (hrest : Follows rest) :
    rewrite kept false (carried fields.lexemes ++ rest) =
      joined fields.normals ++ rewrite kept false rest := by
  cases fields with
  | last label equals type =>
      rw [FieldList.lexemes, rewrite_labelled, rewrite_phrase type kept rest hrest]
      simp [FieldList.normals]
  | more label equals type comma tail =>
      have htype := rewrite_phrase type kept (.comma :: (carried tail.lexemes ++ rest)) nofun
      simp only [FieldList.lexemes, carried_append, carried_token, List.append_assoc,
        List.cons_append]
      rw [rewrite_labelled, htype]
      simp [FieldList.normals, rewrite, rewrite_fields tail kept rest hrest,
        Operand.joined_cons tail.normals_ne_nil]
end

/-! ## The normal form of what is described -/

/-- A numeral that fits is rewritten to the numeral of its word. -/
theorem canonical_eq_wordToken {digits : Spanned String} (h : (numeral digits).Fits) :
    canonical digits.value = Operand.wordToken (word digits).value := by
  have hvalue : (UInt64.ofNat (Decimal.value digits.value)).toNat = Decimal.value digits.value :=
    UInt64.toNat_ofNat_of_lt' h
  simp [canonical, Operand.wordToken, Decimal.write, word, hvalue]

/-- A name is rewritten to the tokens of the operand that it stands for. -/
theorem expand_eq_tokens (name : String) : expand name = (Operand.ofName name).tokens := by
  unfold expand Operand.ofName
  cases DType.ofName? name with
  | some scalar => rfl
  | none =>
      cases htype : Operand.ofTypeName? name with
      | none => rfl
      | some type =>
          exact Operand.ofText_text (Operand.writable_of_mem_named (Operand.mem_named htype))

/-- Numerals that fit are rewritten to the numerals of their words. -/
theorem normals_eq_wordTokens (values : NumeralList) (hfits : ∀ item ∈ values.lexemes, item.Fits) :
    values.normals = (values.words.map (·.value)).map ([Operand.wordToken ·]) := by
  induction values with
  | last digits =>
      have hdigits := hfits (numeral digits) (by simp [NumeralList.lexemes])
      simp [NumeralList.normals, NumeralList.words, canonical_eq_wordToken hdigits]
  | more digits comma rest ih =>
      obtain ⟨hdigits, hrest⟩ := NumeralList.forall_more hfits
      simp [NumeralList.normals, NumeralList.words, canonical_eq_wordToken hdigits, ih hrest]

/-- The token of a label that a text can hold is the word that the label is. -/
theorem token_eq_ofWord {label : Label} (h : label.token.Proper) :
    label.token = Token.ofWord label.text := by
  cases label with
  | name text =>
      have hfree : Keyword.ofText? text = none := h.2
      simp [Label.token, Label.text, Token.ofWord, hfree]
  | keyword reserved => simp [Label.token, Label.text, Token.ofWord]

mutual
/-- The normal form of an operand is the tokens of the operands that it describes. -/
theorem normal_eq_tokens (phrase : Phrase)
    (hread : ∀ item ∈ phrase.lexemes, item.Fits ∧ item.Proper) (operands : List (Operand String))
    (h : Shape.flatten .relaxed Operand.ofName phrase.term = .ok operands) :
    phrase.normal = joined (operands.map Operand.tokens) := by
  cases phrase with
  | number digits =>
      have hdigits := hread (numeral digits) (by simp [Phrase.lexemes])
      simp only [Phrase.term, Shape.flatten, Except.ok.injEq] at h
      subst h
      simp [Phrase.normal, canonical_eq_wordToken hdigits.1, Operand.tokens]
  | name text =>
      simp only [Phrase.term, Shape.flatten, Except.ok.injEq] at h
      subst h
      simp [Phrase.normal, expand_eq_tokens]
  | record call fields closing =>
      have hfields : ∀ item ∈ fields.lexemes, item.Fits ∧ item.Proper := forall_arguments hread
      rw [Phrase.term, Shape.flatten_record_eq_ok_iff] at h
      obtain ⟨-, described, hdescribed, rfl⟩ := h
      simp [Phrase.normal, Operand.tokens,
        normals_eq_fieldsTokens fields hfields described hdescribed]
  | enum call values closing =>
      have hvalues : ∀ item ∈ values.lexemes, item.Fits :=
        fun item hitem => (forall_arguments hread item hitem).1
      simp only [Phrase.term, Shape.flatten, Except.ok.injEq] at h
      subst h
      simp only [Phrase.normal, normals_eq_wordTokens values hvalues, List.map_cons, List.map_nil,
        Operand.joined_singleton, Operand.tokens]
  | var call lower comma upper closing =>
      obtain ⟨hlower, hupper⟩ := forall_bounds hread
      rw [Phrase.term, Shape.flatten_var_eq_ok_iff] at h
      obtain ⟨-, rfl⟩ := h
      simp [Phrase.normal, Operand.tokens, canonical_eq_wordToken hlower.1,
        canonical_eq_wordToken hupper.1]
  | group opening members closing =>
      have hmembers : ∀ item ∈ members.lexemes, item.Fits ∧ item.Proper := forall_members hread
      rw [Phrase.term, Shape.flatten] at h
      exact joined_normals_eq_tokens members hmembers operands h

/-- The normal forms of operands are the tokens of the operands that they describe. -/
theorem joined_normals_eq_tokens (phrases : PhraseList)
    (hread : ∀ item ∈ phrases.lexemes, item.Fits ∧ item.Proper) (operands : List (Operand String))
    (h : Shape.flattenAll .relaxed Operand.ofName phrases.terms = .ok operands) :
    joined phrases.normals = joined (operands.map Operand.tokens) := by
  cases phrases with
  | last operand =>
      rw [PhraseList.terms, Shape.flattenAll_cons_eq_ok_iff] at h
      obtain ⟨first, others, hfirst, hothers, rfl⟩ := h
      rw [Shape.flattenAll, Except.ok.injEq] at hothers
      subst hothers
      simp [PhraseList.normals, normal_eq_tokens operand hread first hfirst]
  | more operand comma rest =>
      obtain ⟨hoperand, hrest⟩ := PhraseList.forall_more hread
      rw [PhraseList.terms, Shape.flattenAll_cons_eq_ok_iff] at h
      obtain ⟨first, others, hfirst, hothers, rfl⟩ := h
      have hfirstNe := (writable_of_flatten operand (fun item hitem => (hoperand item hitem).2)
        first hfirst).1
      have hothersNe := (writable_of_flattenAll rest (fun item hitem => (hrest item hitem).2)
        others hothers).1
      rw [PhraseList.normals, Operand.joined_cons rest.normals_ne_nil,
        normal_eq_tokens operand hoperand first hfirst,
        joined_normals_eq_tokens rest hrest others hothers, List.map_append,
        Operand.joined_append (by simpa using hfirstNe) (by simpa using hothersNe)]

/-- The normal forms of fields are the tokens of the fields that they describe. -/
theorem normals_eq_fieldsTokens (fields : FieldList)
    (hread : ∀ item ∈ fields.lexemes, item.Fits ∧ item.Proper) (described : Fields String)
    (h : Shape.flattenFields .relaxed Operand.ofName fields.terms = .ok described) :
    fields.normals = Operand.fieldsTokens described := by
  cases fields with
  | last label equals type =>
      obtain ⟨hlabel, htype⟩ := FieldList.forall_last hread
      rw [FieldList.terms, Shape.flattenFields_cons_eq_ok_iff] at h
      obtain ⟨operand, others, hoperand, hothers, rfl⟩ := h
      rw [Shape.flattenFields, Except.ok.injEq] at hothers
      subst hothers
      simp [FieldList.normals, Operand.fieldsTokens, token_eq_ofWord hlabel.2,
        normal_eq_tokens type htype [operand] hoperand]
  | more label equals type comma rest =>
      obtain ⟨hlabel, htype, hrest⟩ := FieldList.forall_more hread
      rw [FieldList.terms, Shape.flattenFields_cons_eq_ok_iff] at h
      obtain ⟨operand, others, hoperand, hothers, rfl⟩ := h
      simp [FieldList.normals, Operand.fieldsTokens, token_eq_ofWord hlabel.2,
        normal_eq_tokens type htype [operand] hoperand,
        normals_eq_fieldsTokens rest hrest others hothers]
end

end Grammar

namespace Shape

open Grammar

variable {options : Options} {source : String} {shape : Shape String}

/-- The tokens of a shape are the normal form of the tokens of the text that it was read from. -/
theorem tokens_eq_normalForm (h : parse options source = .ok shape) :
    shape.tokens = Token.normalForm (Token.ofText source) := by
  obtain ⟨phrases, hitems, hfits, -, hflatten⟩ := parse_eq_ok_iff.1 h
  obtain ⟨hrelaxed, -⟩ := (flattenAll_ok_iff (Operand.passes_ofName options) _ _).1 hflatten
  have hread : ∀ item ∈ phrases.lexemes, item.Fits ∧ item.Proper := fun item hitem =>
    ⟨hfits item (hitems ▸ hitem), Lexeme.proper_of_mem_ofText (hitems ▸ hitem)⟩
  have hrewrite := rewrite_members phrases [] [] nofun
  simp only [List.append_nil, Token.rewrite] at hrewrite
  calc shape.tokens = Operand.joined phrases.normals :=
        (joined_normals_eq_tokens phrases hread shape.operands hrelaxed).symm
    _ = Token.normalForm (carried phrases.lexemes) := hrewrite.symm
    _ = Token.normalForm (Token.ofText source) := by rw [hitems, carried, Token.ofText]

/-- The printed form of a shape that was read from a text holds no stray character, and its tokens
are those of the text without the parentheses of groups, with numerals without leading zeros, and
with each name that is no label written as the type that it stands for. -/
theorem ofText_text_of_parse (h : parse options source = .ok shape) :
    (Lexeme.ofText shape.text).map Lexeme.token? =
      (Token.normalForm (Token.ofText source)).map some := by
  obtain ⟨-, hparts⟩ := writable_of_parse h
  rw [token?_ofText_text fun part hpart => (hparts part hpart).1, tokens_eq_normalForm h]

/-- Groups around a number and a field, leading zeros, an alias and a keyword as a label. -/
theorem ofText_text_of_parse_groups :
    parse {} "(007, (Record(Var=(int))))" = .ok ⟨[.integer 7, .record [("Var", .dtype .int32)]]⟩ ∧
      (Lexeme.ofText (text ⟨[.integer 7, .record [("Var", .dtype .int32)]]⟩)).map Lexeme.token? =
        (Token.normalForm (Token.ofText "(007, (Record(Var=(int))))")).map some := by
  have hread : parse {} "(007, (Record(Var=(int))))" =
      .ok ⟨[.integer 7, .record [("Var", .dtype .int32)]]⟩ :=
    parse_eq_ok_of_items rfl (by decide +kernel)
  exact ⟨hread, ofText_text_of_parse hread⟩

end Shape

end ArrayShape
