import ArrayShape.Proofs.Flattening
import ArrayShape.Proofs.InternedTerms
import ArrayShape.Proofs.Relocation

/-!
# Shapes that are read with keys

A tree with keys describes a shape with the texts of the shape that its text describes, or fails
with the same error at the same place (`follows_elaborate`). Labels are compared by their keys here,
which is the same as comparing their texts where no text has two keys. `follows_parse` joins this
with what `follows_tree` says of reading the tree.
-/

namespace ArrayShape

namespace Interner

variable {Table Key : Type} {interner : Interner Table Key} {ε δ : Type}
  {errors : Table → ε → δ → Prop}

/-! ## Names of types -/

mutual
/-- Where the names of an operand are entered, they are replaced by their keys. -/
theorem follows_enterNames (table : Table) (operand : Operand String) :
    interner.Follows table (interner.Spells Operand.mapM) errors
      (operand.mapM interner.enterStatic) (.ok operand) := by
  cases operand with
  | typeVar name =>
      exact (follows_enterStatic table name).bind_ok fun key later _ hkey =>
        .of_ok (Operand.mapM_typeVar_eq_some.2 ⟨name, hkey, rfl⟩)
  | record fields =>
      exact (follows_enterFieldNames table fields).bind_ok fun keyed later _ h =>
        .of_ok (Operand.mapM_record_eq_some.2 ⟨fields, h, rfl⟩)
  | _ => exact .of_ok rfl

/-- Where the names of fields are entered, they are replaced by their keys. -/
theorem follows_enterFieldNames (table : Table) (fields : Fields String) :
    interner.Follows table (interner.Spells Operand.mapFieldsM) errors
      (Operand.mapFieldsM interner.enterStatic fields) (.ok fields) := by
  match fields with
  | [] => exact .of_ok rfl
  | (label, type) :: rest =>
      refine (follows_enterStatic table label).bind_ok fun key later _ hkey => ?_
      refine (follows_enterNames later type).bind_ok fun keyed behind hreach htype => ?_
      refine (follows_enterFieldNames behind rest).bind_ok fun others last hlast hrest => .of_ok ?_
      exact Operand.mapFieldsM_cons_eq_some.2
        ⟨label, (hreach.trans hlast).keeps key label hkey, type,
          keyed.mapM_keeps hlast.keeps type htype, rest, hrest, rfl⟩
end

/-- Where the names in types are entered, they are replaced by their keys. -/
theorem follows_enterTypes (table : Table) (types : List (String × Operand String)) :
    interner.Follows table (interner.Spells Operand.mapTypesM) errors
      (Operand.mapTypesM interner.enterStatic types) (.ok types) := by
  induction types generalizing table with
  | nil => exact .of_ok rfl
  | cons entry rest ih =>
      obtain ⟨text, type⟩ := entry
      refine (follows_enterNames table type).bind_ok fun keyed later _ htype => ?_
      refine (ih later).bind_ok fun others last hlast hrest => .of_ok ?_
      exact Operand.mapTypesM_cons_eq_some.2
        ⟨type, keyed.mapM_keeps hlast.keeps type htype, rest, hrest, rfl⟩

/-- A composite type is found by its name, with keys in place of its labels. -/
theorem follows_typeNamed? (table : Table) (text : String) :
    interner.Follows table (fun later => Option.Rel (interner.Spells Operand.mapM later)) errors
      (interner.typeNamed? text) (.ok (Operand.ofTypeName? text)) :=
  (follows_enterTypes table Operand.named).bind_ok fun _ _ _ htypes =>
    .of_ok (Operand.lookup_mapTypesM htypes text)

/-- A name is resolved as its text is. -/
theorem follows_resolve {table : Table} {key : Key} {text : String}
    (hkey : interner.text? table key = some text) :
    interner.Follows table (interner.Spells Operand.mapM) errors (interner.resolve key)
      (.ok (Operand.ofName text)) := by
  refine .get_bind ?_
  simp only [hkey, Operand.ofName]
  cases DType.ofName? text with
  | some scalar => exact .of_ok rfl
  | none =>
      dsimp only
      refine (follows_typeNamed? table text).bind_ok fun found later hreach hfound => .of_ok ?_
      generalize Operand.ofTypeName? text = expected at hfound
      cases hfound with
      | some htype => exact htype
      | none => exact Operand.mapM_typeVar_eq_some.2 ⟨text, hreach.keeps key text hkey, rfl⟩

/-! ## Splicing -/

section Contributions

variable {options : Options} {resolve : String → Operand String}

/-- What a term contributes stands in front of what the other terms contribute. -/
theorem flattenAll_eq_bind (term : Term String) (rest : List (Term String)) :
    Shape.flattenAll options resolve (term :: rest) =
      Shape.flatten options resolve term >>= fun operands =>
        Shape.flattenAll options resolve rest >>= fun others => .ok (operands ++ others) := by
  rw [Shape.flattenAll]
  cases Shape.flatten options resolve term with
  | error error => rfl
  | ok operands => cases Shape.flattenAll options resolve rest <;> rfl

/-- What a field describes stands in front of what the other fields describe. -/
theorem flattenFields_eq_bind (label : Spanned String) (type : Term String)
    (rest : TermFields String) :
    Shape.flattenFields options resolve ((label, type) :: rest) =
      Shape.flatten options resolve type >>= fun operands =>
        Shape.single type.range operands >>= fun operand =>
          Shape.flattenFields options resolve rest >>= fun others =>
            .ok ((label.value, operand) :: others) := by
  rw [Shape.flattenFields]
  cases Shape.flatten options resolve type with
  | error error => rfl
  | ok operands =>
      simp only [Except.bind, bind]
      cases Shape.single type.range operands with
      | error error => rfl
      | ok operand => cases Shape.flattenFields options resolve rest <;> rfl

/-- A record is described behind the check of its labels, unless labels may be repeated. -/
theorem flatten_record_eq_bind (range : ByteRange) (fields : TermFields String)
    (h : options.allowRepeats = false) :
    Shape.flatten options resolve (.record range fields) =
      Shape.checkLabels range fields >>= fun _ =>
        (Shape.flattenFields options resolve fields).map fun fields => [.record fields] := by
  rw [Shape.flatten, Shape.checkLabels, h]
  cases Shape.repeats fields <;> rfl

end Contributions

section Splicing

variable [DecidableEq Key] {options : Options}

/-- The operands of a list have the texts of other operands. -/
abbrev SpellsAll (interner : Interner Table Key) :
    Table → List (Operand Key) → List (Operand String) → Prop :=
  interner.Spells fun f => List.mapM (Operand.mapM f)

/-- Labels are repeated where their texts are. -/
theorem follows_checkLabels {table : Table} (hdistinct : interner.Distinct table)
    (range : ByteRange) {fields : TermFields Key} {texts : TermFields String}
    (h : interner.Spells Term.mapFieldsM table fields texts) :
    interner.Follows table (fun _ _ _ => True) (interner.Spells CheckError.mapM)
      (liftM (Shape.checkLabels range fields)) (Shape.checkLabels range texts) := by
  have hrepeats := Shape.repeats_mapM hdistinct h
  unfold Shape.checkLabels
  cases hlabels : Shape.repeats fields with
  | nil =>
      rw [hlabels] at hrepeats
      rw [← Option.some.inj hrepeats]
      exact .of_ok trivial
  | cons label others =>
      rw [hlabels] at hrepeats
      obtain ⟨label', hlabel, others', hothers, hcons⟩ := mapM_cons_eq_some.1 hrepeats
      rw [← hcons]
      refine .of_error (Option.bind_eq_some_iff.2 ⟨_, ?_, rfl⟩)
      exact mapM_cons_eq_some.2 ⟨label', hlabel, others', hothers, rfl⟩

mutual
/-- A term contributes operands with the texts of the operands that its text contributes. -/
theorem follows_flatten {table : Table} (hdistinct : interner.Distinct table) (term : Term Key)
    {text : Term String} (h : interner.Spells Term.mapM table term text) :
    interner.Follows table interner.SpellsAll (interner.Spells CheckError.mapM)
      (interner.flatten options term) (Shape.flatten options Operand.ofName text) := by
  cases term with
  | name range key =>
      obtain ⟨word, hkey, rfl⟩ := Term.mapM_name_eq_some.1 h
      exact (follows_resolve hkey).bind_ok fun operand later _ hoperand =>
        .of_ok (mapM_cons_eq_some.2 ⟨_, hoperand, [], rfl, rfl⟩)
  | number range value =>
      cases h
      exact .of_ok rfl
  | record range fields =>
      obtain ⟨texts, hfields, rfl⟩ := Term.mapM_record_eq_some.1 h
      have hrecord : ∀ later, interner.Reaches table later →
          interner.Follows later interner.SpellsAll (interner.Spells CheckError.mapM)
            (do return [.record (← interner.flattenFields options fields)])
            ((Shape.flattenFields options Operand.ofName texts).map fun fields =>
              [.record fields]) := by
        intro later hreach
        have hkept := Term.mapFieldsM_keeps hreach.keeps fields texts hfields
        exact (follows_flattenFields (hreach.distinct hdistinct) fields hkept).map
          fun fields texts last h => mapM_cons_eq_some.2
            ⟨_, Operand.mapM_record_eq_some.2 ⟨texts, h, rfl⟩, [], rfl, rfl⟩
      rw [flatten]
      cases hallow : options.allowRepeats with
      | true =>
          rw [Shape.flatten, hallow]
          exact hrecord table (.refl table)
      | false =>
          rw [flatten_record_eq_bind range texts hallow]
          exact (follows_checkLabels hdistinct range hfields).bind
            fun _ _ later hreach _ => hrecord later hreach
  | enum range values =>
      cases h
      exact .of_ok rfl
  | var range lower upper =>
      cases h
      rw [flatten, Shape.flatten]
      split
      · exact .of_error rfl
      · exact .of_ok rfl
  | group range members =>
      obtain ⟨texts, hmembers, rfl⟩ := Term.mapM_group_eq_some.1 h
      exact follows_flattenAll hdistinct members hmembers

/-- Terms contribute operands with the texts of the operands that their texts contribute. -/
theorem follows_flattenAll {table : Table} (hdistinct : interner.Distinct table)
    (terms : List (Term Key)) {texts : List (Term String)}
    (h : interner.Spells Term.mapAllM table terms texts) :
    interner.Follows table interner.SpellsAll (interner.Spells CheckError.mapM)
      (interner.flattenAll options terms) (Shape.flattenAll options Operand.ofName texts) := by
  match terms with
  | [] =>
      cases h
      exact .of_ok rfl
  | term :: rest =>
      obtain ⟨text, hterm, others, hrest, rfl⟩ := Term.mapAllM_cons_eq_some.1 h
      rw [flattenAll, flattenAll_eq_bind]
      refine (follows_flatten hdistinct term hterm).bind
        fun operands _ later hreach hoperands => ?_
      refine (follows_flattenAll (hreach.distinct hdistinct) rest
        (Term.mapAllM_keeps hreach.keeps rest others hrest)).bind
        fun behind texts last hlast hbehind => .of_ok ?_
      have hkept := Keeps.mapM (Operand.mapM_keeps hlast.keeps) operands _ hoperands
      show (operands ++ behind).mapM (Operand.mapM (interner.text? last)) = _
      rw [List.mapM_append, hkept, show behind.mapM _ = some texts from hbehind]
      rfl

/-- Fields are described with the texts of the fields that their texts describe. -/
theorem follows_flattenFields {table : Table} (hdistinct : interner.Distinct table)
    (fields : TermFields Key) {texts : TermFields String}
    (h : interner.Spells Term.mapFieldsM table fields texts) :
    interner.Follows table (interner.Spells Operand.mapFieldsM) (interner.Spells CheckError.mapM)
      (interner.flattenFields options fields)
      (Shape.flattenFields options Operand.ofName texts) := by
  match fields with
  | [] =>
      cases h
      exact .of_ok rfl
  | (label, type) :: rest =>
      obtain ⟨label', hlabel, type', htype, rest', hrest, rfl⟩ := Term.mapFieldsM_cons_eq_some.1 h
      rw [flattenFields, flattenFields_eq_bind]
      refine (follows_flatten hdistinct type htype).bind
        fun operands texts later hreach hoperands => ?_
      have hrange : type.range = type'.range := Term.range_of_mapM htype
      have hlength : operands.length = texts.length := length_of_mapM hoperands
      cases operands with
      | nil =>
          cases hoperands
          exact .of_error (by rw [hrange]; rfl)
      | cons operand others =>
          obtain ⟨operand', hoperand, others', hothers, rfl⟩ := mapM_cons_eq_some.1 hoperands
          cases others with
          | nil =>
              cases hothers
              refine (follows_flattenFields (hreach.distinct hdistinct) rest
                (Term.mapFieldsM_keeps hreach.keeps rest rest' hrest)).bind
                fun fields texts last hlast hfields => .of_ok ?_
              obtain ⟨value, hvalue, rfl⟩ := Spanned.mapM_eq_some.1 hlabel
              exact Operand.mapFieldsM_cons_eq_some.2
                ⟨value, (hreach.trans hlast).keeps label.value value hvalue, operand',
                  operand.mapM_keeps hlast.keeps operand' hoperand, texts, hfields, rfl⟩
          | cons second behind =>
              obtain ⟨second', -, behind', -, rfl⟩ := mapM_cons_eq_some.1 hothers
              refine .of_error ?_
              rw [hlength, hrange]
              rfl
end

/-- A tree describes a shape with the texts of the shape that its text describes. -/
theorem follows_elaborate {table : Table} (hdistinct : interner.Distinct table) (tree : Tree Key)
    {text : Tree String} (h : interner.Spells Tree.mapM table tree text) :
    interner.Follows table (interner.Spells Shape.mapM) (interner.Spells CheckError.mapM)
      (interner.elaborate options tree) (Shape.resolve options text) := by
  obtain ⟨texts, hterms, ⟨⟩⟩ := Option.bind_eq_some_iff.1 h
  rw [Shape.resolve, Shape.ofTree_eq]
  exact (follows_flattenAll hdistinct tree.terms hterms).map fun operands texts later h =>
    Shape.mapM_eq_some.2 ⟨texts, h, rfl⟩

end Splicing

/-! ## Reading -/

/-- Reading with keys comes out as reading with texts. -/
theorem follows_parse [DecidableEq Key] {table : Table} (hdistinct : interner.Distinct table)
    (options : Options) (source : String) :
    interner.Follows table (interner.Spells Shape.mapM) (interner.Spells Failure.spelled?)
      (interner.parse options source) (Shape.parse options source) := by
  rw [Shape.parse_eq_ofLexemes, Shape.ofLexemes]
  have htree : interner.Follows table (interner.Spells Tree.mapM) (interner.Spells Failure.spelled?)
      (ExceptT.adapt .malformed
        (ListReader.tree interner.naming source.utf8ByteSize (Lexeme.ofText source)))
      ((Tree.ofLexemes source.utf8ByteSize (Lexeme.ofText source)).mapError .malformed) := by
    refine (follows_tree table _).adapt fun later error other herror => ?_
    cases herror
    rfl
  refine htree.bind fun tree text later hreach hspells => ?_
  exact (follows_elaborate (hreach.distinct hdistinct) tree hspells).adapt
    fun last error other herror => Option.bind_eq_some_iff.2 ⟨other, herror, rfl⟩

end Interner

end ArrayShape
