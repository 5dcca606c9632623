import ArrayShape.Proofs.Leaves

/-!
# Free names

A name among tokens is free if it stands for an operand and if that operand is no type: no equals
sign follows the name, and neither an element type nor a composite type is called so. The type
variables of a shape that was read from a text are the free names of the text, in the same order and
as often, and they are the free names of its printed form as well (`freeVars_of_parse`). On the side
of shapes the type variables are found among the leaves (`freeVars_eq_leaves`), whatever records
they lie in.
-/

namespace ArrayShape

variable {Name : Type}

namespace Operand

/-- The name of a type variable, and nothing for any other operand. -/
def typeVar? : Operand Name → Option Name
  | .typeVar name => some name
  | .integer _ | .record _ | .enum _ | .var _ _ | .dtype _ => none

mutual
/-- The type variables of an operand are those among its leaves. -/
theorem freeVars_eq_leaves (operand : Operand Name) :
    operand.freeVars = operand.leaves.filterMap typeVar? := by
  cases operand with
  | record fields => exact fieldsFreeVars_eq_leaves fields
  | _ => simp [freeVars, leaves, typeVar?]

/-- The type variables of the types of fields are those among their leaves. -/
theorem fieldsFreeVars_eq_leaves (fields : Fields Name) :
    fieldsFreeVars fields = (fieldsLeaves fields).filterMap typeVar? := by
  match fields with
  | [] => rfl
  | (label, type) :: rest =>
      rw [fieldsFreeVars, fieldsLeaves, List.filterMap_append, freeVars_eq_leaves type,
        fieldsFreeVars_eq_leaves rest]
end

/-- The type variables of an operand are those among its named leaves. -/
theorem freeVars_eq_namedLeaves (operand : Operand Name) :
    operand.freeVars = operand.namedLeaves.filterMap typeVar? := by
  rw [filterMap_namedLeaves (fun leaf hleaf => by cases leaf <;> cases hleaf <;> rfl),
    freeVars_eq_leaves]

/-- Neither an element type nor a composite type has the name. -/
def isFree (text : String) : Bool :=
  (DType.ofName? text).isNone && (ofTypeName? text).isNone

/-- A name stands for a type variable if it is free, and else for an operand without any. -/
theorem freeVars_ofName (text : String) :
    (ofName text).freeVars = if isFree text then [text] else [] := by
  unfold ofName isFree
  cases DType.ofName? text with
  | some scalar => simp [freeVars]
  | none =>
      cases htype : ofTypeName? text with
      | none => simp [freeVars]
      | some type =>
          have hclosed : ∀ entry ∈ named, entry.2.freeVars = [] := by
            simp [named, freeVars, fieldsFreeVars]
          simpa using hclosed _ (mem_named htype)

end Operand

namespace Token

open Operand (isFree)

/-- The free names among tokens, in order and with repetitions. -/
def freeNames (tokens : List Token) : List String :=
  (operandNames tokens).filter isFree

/-- In some place among tokens the name stands without an equals sign behind it. -/
def NamesOperand (name : String) (tokens : List Token) : Prop :=
  ∃ before after, tokens = before ++ .name name :: after ∧ after.head? ≠ some .equals

/-- A name stands in some place among tokens if it is the first of them or stands among the
others. -/
theorem namesOperand_cons {name : String} {token : Token} {rest : List Token} :
    NamesOperand name (token :: rest) ↔
      (token = .name name ∧ rest.head? ≠ some .equals) ∨ NamesOperand name rest := by
  constructor
  · rintro ⟨before, after, htokens, hafter⟩
    cases before with
    | nil =>
        cases htokens
        exact .inl ⟨rfl, hafter⟩
    | cons first before =>
        cases htokens
        exact .inr ⟨before, after, rfl, hafter⟩
  · rintro (⟨rfl, hrest⟩ | ⟨before, after, rfl, hafter⟩)
    · exact ⟨[], rest, rfl, hrest⟩
    · exact ⟨token :: before, after, rfl, hafter⟩

/-- The operand names are the names that stand in some place without an equals sign behind them. -/
theorem mem_operandNames_iff {name : String} {tokens : List Token} :
    name ∈ operandNames tokens ↔ NamesOperand name tokens := by
  induction tokens with
  | nil => simp [operandNames, NamesOperand]
  | cons token rest ih =>
      rw [namesOperand_cons, ← ih]
      cases token with
      | name text =>
          rw [operandNames]
          split
          · next hequals => simp [hequals]
          · next hequals => simp [hequals, eq_comm]
      | _ => simp [operandNames]

/-- The free names are the type variables of what the operand names stand for. -/
theorem freeNames_eq_flatMap (tokens : List Token) :
    freeNames tokens =
      (operandNames tokens).flatMap fun name => (Operand.ofName name).freeVars := by
  unfold freeNames
  induction operandNames tokens with
  | nil => rfl
  | cons name rest ih =>
      rw [List.flatMap_cons, ← ih, Operand.freeVars_ofName, List.filter_cons]
      split <;> rfl

end Token

namespace Shape

open Operand (namedLeaves)

variable {options : Options} {source : String} {shape : Shape String}

/-- A shape whose named leaves are those that operand names stand for has the free names as its type
variables. -/
theorem freeVars_eq_freeNames {tokens : List Token}
    (h : shape.operands.flatMap namedLeaves =
      (Token.operandNames tokens).flatMap fun name => (Operand.ofName name).namedLeaves) :
    shape.freeVars = Token.freeNames tokens :=
  calc shape.freeVars
      = (shape.operands.flatMap namedLeaves).filterMap Operand.typeVar? := by
        rw [freeVars, funext Operand.freeVars_eq_namedLeaves, List.filterMap_flatMap]
    _ = (Token.operandNames tokens).flatMap fun name => (Operand.ofName name).freeVars := by
        simp only [h, Operand.freeVars_eq_namedLeaves, List.filterMap_flatMap]
    _ = Token.freeNames tokens := (Token.freeNames_eq_flatMap tokens).symm

/-- The type variables of a shape that was read from a text are the free names of the text, and also
those of its printed form: each name without an equals sign behind it that stands for no type. -/
theorem freeVars_of_parse (h : parse options source = .ok shape) :
    shape.freeVars = Token.freeNames (Token.ofText source) ∧
      shape.freeVars = Token.freeNames (Token.ofText shape.text) ∧
        ∀ name, name ∈ shape.freeVars ↔
          DType.ofName? name = none ∧ Operand.ofTypeName? name = none ∧
            Token.NamesOperand name (Token.ofText source) := by
  have hsource := freeVars_eq_freeNames (namedLeaves_of_parse h)
  refine ⟨hsource, freeVars_eq_freeNames (namedLeaves_text h), fun name => ?_⟩
  simp only [hsource, Token.freeNames, List.mem_filter, Token.mem_operandNames_iff,
    Operand.isFree, Bool.and_eq_true, Option.isNone_iff_eq_none]
  rw [and_comm, and_assoc]

/-- A label that is also a type variable, in a group and behind a record, between names of types. -/
theorem freeVars_of_parse_label :
    parse {} "Record(N=(N), R=RGBA), M, N, int" =
        .ok ⟨[.record [("N", .typeVar "N"), ("R", Operand.ofName "RGBA")], .typeVar "M",
          .typeVar "N", .dtype .int32]⟩ ∧
      Token.freeNames (Token.ofText "Record(N=(N), R=RGBA), M, N, int") = ["N", "M", "N"] := by
  have hread : parse {} "Record(N=(N), R=RGBA), M, N, int" =
      .ok ⟨[.record [("N", .typeVar "N"), ("R", Operand.ofName "RGBA")], .typeVar "M",
        .typeVar "N", .dtype .int32]⟩ :=
    parse_eq_ok_of_items rfl (by decide +kernel)
  exact ⟨hread, (freeVars_of_parse hread).1.symm.trans (by decide +kernel)⟩

end Shape

end ArrayShape
