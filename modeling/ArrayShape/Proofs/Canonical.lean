import ArrayShape.Proofs.Description

/-!
# Printed shapes are canonical

Shapes with the same printed form are the same (`Shape.text_canonical`), also where the printed form
is not read back: the depth of records is not limited, and lists may be empty. Only the names must
be `Recognizable`. The tokens of an operand tell where the operand ends, whatever follows them
(`Operand.decodes_tokens`), so that the commas between operands and those inside them are told
apart.
-/

namespace ArrayShape

/-- Words that are written as the same token are the same. -/
theorem Token.ofWord_injective {first second : String} (h : ofWord first = ofWord second) :
    first = second := by
  have htext := congrArg Token.spelling h
  rw [Operand.spelling_ofWord, Operand.spelling_ofWord] at htext
  exact String.toList_inj.1 htext

namespace Operand

/-- The names of an operand, apart from those of the operands inside it, are read as what they are:
the type variable is an identifier that is neither reserved nor the name of a type, and the labels
are identifiers. -/
def Recognizable : Operand String → Prop
  | .typeVar name =>
    Text.isIdentifier name = true ∧ Keyword.ofText? name = none ∧ DType.ofName? name = none ∧
      ofTypeName? name = none
  | .record fields => ∀ field ∈ fields, Text.isIdentifier field.1 = true
  | .integer _ | .enum _ | .var _ _ | .dtype _ => True

/-- Names that are read as what they are can stand in a text. -/
theorem Recognizable.lexical {operand : Operand String} (h : operand.Recognizable) :
    operand.Lexical := by
  cases operand with
  | typeVar name => exact ⟨h.1, h.2.1⟩
  | integer | record | enum | var | dtype => exact h

/-- The names of an operand that is read from its printed form are read as what they are. -/
theorem Writable.recognizable {operand : Operand String} (h : operand.Writable) :
    operand.Recognizable := by
  cases operand with
  | record fields => exact h.2
  | enum => trivial
  | integer | typeVar | var | dtype => exact h

/-! ## Where tokens end -/

/-- Words with the same numeral are the same. -/
theorem wordToken_injective {first second : UInt64} (h : wordToken first = wordToken second) :
    first = second := by
  have hread := congrArg Decimal.read? (Token.number.inj h)
  rw [Decimal.read?_write, Decimal.read?_write] at hread
  exact Option.some.inj hread

/-- Tokens that do not begin by closing a list. -/
def Opens (tokens : List Token) : Prop :=
  ∃ first rest, tokens = first :: rest ∧ first ≠ .closeParen

/-- The tokens of values tell where they end, whatever follows them. -/
def Decodes {α : Type} (tokens : α → List Token) (first second : α) : Prop :=
  ∀ rest other, tokens first ++ rest = tokens second ++ other → first = second ∧ rest = other

/-- Arguments with their closing parenthesis tell where they end if each of them does. -/
theorem joined_append_inj {α : Type} {tokens : α → List Token} {first second : List α}
    {rest other : List Token} (hopens : ∀ value, Opens (tokens value))
    (hdecodes : ∀ x ∈ first, ∀ y ∈ second, Decodes tokens x y)
    (h : joined (first.map tokens) ++ .closeParen :: rest =
      joined (second.map tokens) ++ .closeParen :: other) : first = second ∧ rest = other := by
  -- A list that has ended cannot go on with a first argument.
  have hended (value : α) (values : List α) (behind others : List Token) :
      .closeParen :: behind ≠ joined ((value :: values).map tokens) ++ others := by
    intro heq
    obtain ⟨token, more, htokens, hclose⟩ := hopens value
    cases values <;> simp [htokens, hclose.symm] at heq
  induction first generalizing second with
  | nil =>
      cases second with
      | nil => exact ⟨rfl, (List.cons.inj h).2⟩
      | cons y ys => exact absurd h (hended y ys rest _)
  | cons x xs ih =>
      cases second with
      | nil => exact absurd h.symm (hended x xs other _)
      | cons y ys =>
          have hhead : Decodes tokens x y := hdecodes x List.mem_cons_self y List.mem_cons_self
          have htail : ∀ x ∈ xs, ∀ y ∈ ys, Decodes tokens x y := fun x hx y hy =>
            hdecodes x (List.mem_cons_of_mem _ hx) y (List.mem_cons_of_mem _ hy)
          cases xs with
          | nil =>
              cases ys with
              | nil =>
                  simp only [List.map_cons, List.map_nil, joined_singleton] at h
                  obtain ⟨rfl, heq⟩ := hhead _ _ h
                  exact ⟨rfl, (List.cons.inj heq).2⟩
              -- Behind equal arguments, one list closes and the other goes on with a comma.
              | cons y' ys =>
                  simp only [List.map_cons, List.map_nil, joined_singleton, joined_cons_cons,
                    List.append_assoc] at h
                  obtain ⟨-, heq⟩ := hhead _ _ h
                  cases heq
          | cons x' xs =>
              cases ys with
              | nil =>
                  simp only [List.map_cons, List.map_nil, joined_singleton, joined_cons_cons,
                    List.append_assoc] at h
                  obtain ⟨-, heq⟩ := hhead _ _ h
                  cases heq
              | cons y' ys =>
                  simp only [List.map_cons, joined_cons_cons, List.append_assoc] at h
                  obtain ⟨rfl, heq⟩ := hhead _ _ h
                  obtain ⟨hvalues, rfl⟩ := ih htail (List.cons.inj heq).2
                  exact ⟨by rw [hvalues], rfl⟩

/-! ## Operands -/

/-- The tokens of a field. -/
def fieldTokens (field : String × Operand String) : List Token :=
  Token.ofWord field.1 :: .equals :: field.2.tokens

/-- The arguments of a record are the tokens of its fields. -/
theorem fieldsTokens_eq_map (fields : Fields String) :
    fieldsTokens fields = fields.map fieldTokens := by
  induction fields with
  | nil => rfl
  | cons field rest ih => simp [fieldsTokens, fieldTokens, ih]

/-- A word is no closing parenthesis. -/
theorem opens_fieldTokens (field : String × Operand String) : Opens (fieldTokens field) := by
  refine ⟨_, _, rfl, ?_⟩
  unfold Token.ofWord
  split <;> simp

/-- No operand begins with a closing parenthesis. -/
theorem opens_tokens (operand : Operand String) : Opens operand.tokens := by
  cases operand <;> exact ⟨_, _, rfl, by simp [wordToken]⟩

/-- No numeral is a closing parenthesis. -/
theorem opens_word (value : UInt64) : Opens [wordToken value] :=
  ⟨_, _, rfl, by simp [wordToken]⟩

/-- Numerals tell where they end. -/
theorem decodes_word (first second : UInt64) :
    Decodes (fun value => [wordToken value]) first second := by
  intro rest other h
  obtain ⟨hword, hrest⟩ := List.cons.inj h
  exact ⟨wordToken_injective hword, hrest⟩

/-- A type variable is not called like an element type. -/
theorem Recognizable.ne_name {name : String} (h : (Operand.typeVar name).Recognizable)
    (scalar : DType) : name ≠ scalar.name := by
  rintro rfl
  have hnone := h.2.2.1
  rw [DType.ofName?_name] at hnone
  cases hnone

/-- The parts of the type of a field are parts of the types of the fields. -/
theorem mem_fieldsParts {fields : Fields String} {field : String × Operand String}
    (hfield : field ∈ fields) {part : Operand String} (hpart : part ∈ field.2.parts) :
    part ∈ fieldsParts fields := by
  induction fields with
  | nil => cases hfield
  | cons first rest ih =>
      rw [fieldsParts, List.mem_append]
      obtain rfl | hfield := List.mem_cons.1 hfield
      · exact .inl hpart
      · exact .inr (ih hfield)

/-- Calls with the same tokens in front of others have the same keyword and the same arguments in
front of others. -/
theorem callTokens_append_inj {first second : Keyword} {arguments others : List (List Token)}
    {rest other : List Token}
    (h : callTokens first arguments ++ rest = callTokens second others ++ other) :
    first = second ∧
      joined arguments ++ .closeParen :: rest = joined others ++ .closeParen :: other := by
  simpa [callTokens] using h

mutual
/-- The tokens of operands tell where they end, if their names are read as what they are. -/
theorem decodes_tokens (first second : Operand String)
    (hfirst : ∀ part ∈ first.parts, part.Recognizable)
    (hsecond : ∀ part ∈ second.parts, part.Recognizable) : Decodes tokens first second := by
  intro rest other h
  cases first with
  | integer value =>
      cases second with
      | integer value' =>
          obtain ⟨rfl, heq⟩ := decodes_word value value' rest other h
          exact ⟨rfl, heq⟩
      | _ => simp [tokens, callTokens, wordToken] at h
  | typeVar name =>
      cases second with
      | typeVar name' =>
          simp only [tokens, List.singleton_append, List.cons.injEq, Token.name.injEq] at h
          obtain ⟨rfl, heq⟩ := h
          exact ⟨rfl, heq⟩
      | dtype scalar =>
          simp only [tokens, List.singleton_append, List.cons.injEq, Token.name.injEq] at h
          exact absurd h.1 ((hfirst _ (mem_parts_self _)).ne_name scalar)
      | _ => simp [tokens, callTokens, wordToken] at h
  | record fields =>
      cases second with
      | record fields' =>
          rw [parts, List.forall_mem_cons] at hfirst hsecond
          rw [tokens, tokens, fieldsTokens_eq_map, fieldsTokens_eq_map] at h
          obtain ⟨rfl, heq⟩ := joined_append_inj opens_fieldTokens
            (fun field hfield field' hfield' => decodes_fieldTokens fields hfirst.2 field hfield
              field' fun part hpart => hsecond.2 part (mem_fieldsParts hfield' hpart))
            (callTokens_append_inj h).2
          exact ⟨rfl, heq⟩
      | _ => simp [tokens, callTokens, wordToken] at h
  | enum values =>
      cases second with
      | enum values' =>
          rw [tokens, tokens] at h
          obtain ⟨rfl, heq⟩ := joined_append_inj opens_word (fun x _ y _ => decodes_word x y)
            (callTokens_append_inj h).2
          exact ⟨rfl, heq⟩
      | _ => simp [tokens, callTokens, wordToken] at h
  | var lower upper =>
      cases second with
      | var lower' upper' =>
          have hbounds : joined ([lower, upper].map fun value => [wordToken value]) ++
              .closeParen :: rest =
              joined ([lower', upper'].map fun value => [wordToken value]) ++
                .closeParen :: other := (callTokens_append_inj h).2
          obtain ⟨heq, hrest⟩ :=
            joined_append_inj opens_word (fun x _ y _ => decodes_word x y) hbounds
          cases heq
          exact ⟨rfl, hrest⟩
      | _ => simp [tokens, callTokens, wordToken] at h
  | dtype scalar =>
      cases second with
      | typeVar name =>
          simp only [tokens, List.singleton_append, List.cons.injEq, Token.name.injEq] at h
          exact absurd h.1.symm ((hsecond _ (mem_parts_self _)).ne_name scalar)
      | dtype scalar' =>
          simp only [tokens, List.singleton_append, List.cons.injEq, Token.name.injEq] at h
          exact ⟨by rw [DType.name_injective h.1], h.2⟩
      | _ => simp [tokens, callTokens, wordToken] at h

/-- The tokens of fields tell where they end. -/
theorem decodes_fieldTokens (fields : Fields String)
    (hfields : ∀ part ∈ fieldsParts fields, part.Recognizable) :
    ∀ field ∈ fields, ∀ other : String × Operand String,
      (∀ part ∈ other.2.parts, part.Recognizable) → Decodes fieldTokens field other := by
  match fields with
  | [] => exact nofun
  | (label, type) :: rest =>
      rw [fieldsParts, List.forall_mem_append] at hfields
      rw [List.forall_mem_cons]
      refine ⟨fun other hother behind others h => ?_, decodes_fieldTokens rest hfields.2⟩
      simp only [fieldTokens, List.cons_append, List.cons.injEq, true_and] at h
      obtain ⟨hlabel, htype⟩ := h
      obtain ⟨heq, hbehind⟩ := decodes_tokens type other.2 hfields.1 hother behind others htype
      exact ⟨Prod.ext (Token.ofWord_injective hlabel) heq, hbehind⟩
end

end Operand

namespace Shape

open Operand (Recognizable)

/-! ## Shapes -/

/-- Shapes with the same tokens are the same, if their names are read as what they are. -/
theorem tokens_injective {first second : Shape String}
    (hfirst : ∀ part ∈ first.parts, part.Recognizable)
    (hsecond : ∀ part ∈ second.parts, part.Recognizable) (h : first.tokens = second.tokens) :
    first = second := by
  -- A parenthesis behind both ends the lists of operands.
  have hclosed : Operand.joined (first.operands.map Operand.tokens) ++ [.closeParen] =
      Operand.joined (second.operands.map Operand.tokens) ++ [.closeParen] := by
    show first.tokens ++ _ = second.tokens ++ _
    rw [h]
  obtain ⟨hoperands, -⟩ := Operand.joined_append_inj Operand.opens_tokens
    (fun x hx y hy => Operand.decodes_tokens x y
      (fun part hpart => hfirst part (List.mem_flatMap.2 ⟨x, hx, hpart⟩))
      (fun part hpart => hsecond part (List.mem_flatMap.2 ⟨y, hy, hpart⟩))) hclosed
  cases first
  cases second
  exact congrArg Shape.mk hoperands

/-- Shapes that are printed alike have the same tokens, if their names can stand in a text. -/
theorem tokens_eq_of_text_eq {first second : Shape String}
    (hfirst : ∀ part ∈ first.parts, part.Lexical)
    (hsecond : ∀ part ∈ second.parts, part.Lexical) (h : first.text = second.text) :
    first.tokens = second.tokens := by
  have hitems := token?_ofText_of_lexical hfirst
  rw [h, token?_ofText_of_lexical hsecond] at hitems
  exact ((List.map_inj_right fun _ _ => Option.some.inj).1 hitems).symm

/-- Shapes whose names are read as what they are have the same printed form only if they are the
same, whatever the depth of their records and whichever of their lists are empty. -/
theorem text_eq_iff {first second : Shape String}
    (hfirst : ∀ part ∈ first.parts, part.Recognizable)
    (hsecond : ∀ part ∈ second.parts, part.Recognizable) :
    first.text = second.text ↔ first = second := by
  constructor
  · intro h
    exact tokens_injective hfirst hsecond (tokens_eq_of_text_eq
      (fun part hpart => (hfirst part hpart).lexical)
      (fun part hpart => (hsecond part hpart).lexical) h)
  · intro h
    rw [h]

/-- The names of a shape that is read are read as what they are. -/
theorem recognizable_of_parse {options : Options} {source : String} {shape : Shape String}
    (h : parse options source = .ok shape) : ∀ part ∈ shape.parts, part.Recognizable :=
  fun part hpart => ((writable_of_parse h).2 part hpart).1.recognizable

/-- Shapes that are read are the same exactly when they are printed alike, whatever the texts and
the options, and whether or not the printed form is read again. So are any two shapes whose names
are read as what they are, whatever the depth of their records and whichever of their lists are
empty. -/
theorem text_canonical :
    (∀ (options options' : Options) (source source' : String) (first second : Shape String),
      parse options source = .ok first → parse options' source' = .ok second →
        (first = second ↔ first.text = second.text)) ∧
    ∀ first second : Shape String, (∀ part ∈ first.parts, part.Recognizable) →
      (∀ part ∈ second.parts, part.Recognizable) →
        (first = second ↔ first.text = second.text) := by
  refine ⟨fun _ _ _ _ first second hfirst hsecond => ?_, fun first second hfirst hsecond => ?_⟩
  · exact (text_eq_iff (recognizable_of_parse hfirst) (recognizable_of_parse hsecond)).symm
  · exact (text_eq_iff hfirst hsecond).symm

/-- The shape that is called by its name and the shape that is spelled out are printed alike, and
a record without fields is not printed like the enumeration without values in a record. -/
theorem text_canonical_named :
    (∃ first second, parse {} "RGBA" = .ok first ∧
      parse ⟨false, true⟩ "Record(R=int16,G=int16,B=int16,A=int8)" = .ok second ∧
        first.text = second.text) ∧
    (∀ part ∈ (Shape.mk [.record [], .enum []]).parts, part.Recognizable) ∧
    (∀ part ∈ (Shape.mk [.record [("Var", .enum [])]]).parts, part.Recognizable) ∧
    (Shape.mk [.record [], .enum []]).text ≠ (Shape.mk [.record [("Var", .enum [])]]).text := by
  have hname : Lexeme.ofText "RGBA" = [.token (.name "RGBA") ⟨0, 4⟩] := by
    decide +kernel
  have hrecord : Lexeme.ofText "Record(R=int16,G=int16,B=int16,A=int8)" =
      [.token (.keyword .record) ⟨0, 6⟩, .token .openParen ⟨6, 7⟩,
        .token (.name "R") ⟨7, 8⟩, .token .equals ⟨8, 9⟩, .token (.name "int16") ⟨9, 14⟩,
        .token .comma ⟨14, 15⟩,
        .token (.name "G") ⟨15, 16⟩, .token .equals ⟨16, 17⟩, .token (.name "int16") ⟨17, 22⟩,
        .token .comma ⟨22, 23⟩,
        .token (.name "B") ⟨23, 24⟩, .token .equals ⟨24, 25⟩, .token (.name "int16") ⟨25, 30⟩,
        .token .comma ⟨30, 31⟩,
        .token (.name "A") ⟨31, 32⟩, .token .equals ⟨32, 33⟩, .token (.name "int8") ⟨33, 37⟩,
        .token .closeParen ⟨37, 38⟩] := by
    decide +kernel
  have hcalled : parse {} "RGBA" = .ok ⟨[Operand.ofName "RGBA"]⟩ :=
    parse_eq_ok_of_items hname (by decide +kernel)
  have hspelled : parse ⟨false, true⟩ "Record(R=int16,G=int16,B=int16,A=int8)" =
      .ok ⟨[Operand.ofName "RGBA"]⟩ :=
    parse_eq_ok_of_items hrecord (by decide +kernel)
  have hlists : ∀ part ∈ (Shape.mk [.record [], .enum []]).parts, part.Recognizable := by
    simp [Shape.parts, Operand.parts, Operand.fieldsParts, Recognizable]
  have hnested : ∀ part ∈ (Shape.mk [.record [("Var", .enum [])]]).parts, part.Recognizable := by
    have hlabel : Text.isIdentifier "Var" = true := by decide
    simp [Shape.parts, Operand.parts, Operand.fieldsParts, Recognizable, hlabel]
  refine ⟨⟨_, _, hcalled, hspelled, (text_canonical.1 _ _ _ _ _ _ hcalled hspelled).1 rfl⟩,
    hlists, hnested, fun htext => ?_⟩
  have heq := (text_canonical.2 _ _ hlists hnested).2 htext
  simp at heq

end Shape

end ArrayShape
