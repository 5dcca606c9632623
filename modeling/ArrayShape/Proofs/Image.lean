import ArrayShape.Proofs.RoundTrip

/-!
# Which shapes texts describe

Options filter the shapes that texts describe: a text describes a shape under some options exactly
when it describes it without any check and the shape satisfies the checks that are on
(`parse_filter`). A shape is described by some text exactly when it has an operand, its parts are
writable and pass the checks, and every record inside too many others is the composite type with a
name (`exists_parse_iff`). Such a record is not written as a record: `abbreviated` puts the name in
its place, and the printed form of the abbreviated shape is a text that describes the shape.
-/

namespace ArrayShape

namespace Operand

/-! ## Parts that records enclose -/

mutual
/-- The parts that records of an operand enclose are parts of it. -/
theorem innerParts_subset (operand : Operand String) (count : Nat) :
    operand.innerParts count ⊆ operand.parts := by
  cases count with
  | zero => cases operand <;> exact fun _ hpart => hpart
  | succ outer =>
      cases operand with
      | record fields =>
          rw [innerParts, parts]
          exact List.subset_cons_of_subset _ (fieldsInnerParts_subset fields outer)
      | _ => exact List.nil_subset _

/-- The parts that records of the types of fields enclose are parts of these types. -/
theorem fieldsInnerParts_subset (fields : Fields String) (count : Nat) :
    fieldsInnerParts fields count ⊆ fieldsParts fields := by
  match fields with
  | [] => exact List.nil_subset _
  | (label, type) :: rest =>
      rw [fieldsInnerParts, fieldsParts]
      exact List.append_subset.2
        ⟨List.subset_append_of_subset_left _ (innerParts_subset type count),
          List.subset_append_of_subset_right _ (fieldsInnerParts_subset rest count)⟩
end

/-- The only record in what a name stands for is the composite type with a name. -/
theorem ofTypeName?_of_mem_parts_ofName {text : String} {fields : Fields String}
    (h : .record fields ∈ (ofName text).parts) : ofTypeName? "RGBA" = some (.record fields) := by
  unfold ofName at h
  cases hscalar : DType.ofName? text with
  | some scalar => simp [hscalar, parts] at h
  | none =>
      cases htype : ofTypeName? text with
      | none => simp [hscalar, htype, parts] at h
      | some type =>
          have hmem := mem_named htype
          simp only [named, List.mem_singleton, Prod.mk.injEq] at hmem
          obtain ⟨rfl, htyped⟩ := hmem
          -- The types of its fields are element types, so that the other parts are no records.
          have hfields : .record fields = type := by
            simpa [hscalar, htype, htyped, parts, fieldsParts] using h
          rw [htype, hfields]

/-! ## Abbreviations -/

mutual
/-- An operand with a name in the place of each record that `count` records enclose. -/
def abbreviated (name : String) (operand : Operand String) (count : Nat) : Operand String :=
  match operand, count with
  | .record _, 0 => .typeVar name
  | .record fields, outer + 1 => .record (fieldsAbbreviated name fields outer)
  | .integer value, _ => .integer value
  | .typeVar text, _ => .typeVar text
  | .enum values, _ => .enum values
  | .var lower upper, _ => .var lower upper
  | .dtype scalar, _ => .dtype scalar

/-- Fields with a name in the place of each record in their types that `count` records enclose. -/
def fieldsAbbreviated (name : String) (fields : Fields String) (count : Nat) : Fields String :=
  match fields with
  | [] => []
  | (label, type) :: rest =>
    (label, type.abbreviated name count) :: fieldsAbbreviated name rest count
end

variable {name : String}

mutual
/-- No record of an abbreviated operand lies inside more than `count` records. -/
theorem recordDepth_abbreviated_le (operand : Operand String) (count : Nat) :
    (operand.abbreviated name count).recordDepth ≤ count := by
  cases operand with
  | record fields =>
      cases count with
      | zero => exact Nat.le_refl _
      | succ outer => exact Nat.succ_le_succ (fieldsRecordDepth_abbreviated_le fields outer)
  | _ => exact Nat.zero_le _

/-- No record in the types of abbreviated fields lies inside more than `count` records. -/
theorem fieldsRecordDepth_abbreviated_le (fields : Fields String) (count : Nat) :
    fieldsRecordDepth (fieldsAbbreviated name fields count) ≤ count := by
  match fields with
  | [] => exact Nat.zero_le _
  | (label, type) :: rest =>
      exact Nat.max_le.2
        ⟨recordDepth_abbreviated_le type count, fieldsRecordDepth_abbreviated_le rest count⟩
end

/-- Abbreviated fields have the labels of the fields. -/
theorem labels_abbreviated (fields : Fields String) (count : Nat) :
    (fieldsAbbreviated name fields count).map Prod.fst = fields.map Prod.fst := by
  induction fields with
  | nil => rfl
  | cons field rest ih => exact congrArg (field.1 :: ·) ih

mutual
/-- The parts of an abbreviated operand are spellable. -/
theorem spellable_abbreviated (hname : (Operand.typeVar name).Spellable)
    (operand : Operand String) (hspellable : ∀ part ∈ operand.parts, part.Spellable)
    (count : Nat) : ∀ part ∈ (operand.abbreviated name count).parts, part.Spellable := by
  cases operand with
  | record fields =>
      cases count with
      | zero => simpa [abbreviated, parts] using hname
      | succ outer =>
          rw [parts, List.forall_mem_cons] at hspellable
          obtain ⟨⟨hne, hlabels⟩, hfields⟩ := hspellable
          have hsame : (fieldsAbbreviated name fields outer).map Prod.fst = fields.map Prod.fst :=
            labels_abbreviated fields outer
          rw [abbreviated, parts, List.forall_mem_cons]
          refine ⟨⟨fun hnil => ?_, ?_⟩, spellable_fieldsAbbreviated hname fields hfields outer⟩
          · rw [hnil] at hsame
            exact hne (List.map_eq_nil_iff.1 hsame.symm)
          · have hall : ∀ label ∈ fields.map Prod.fst, Text.isIdentifier label = true :=
              List.forall_mem_map.2 hlabels
            exact List.forall_mem_map.1 (hsame ▸ hall)
  | _ => exact hspellable

/-- The parts of the types of abbreviated fields are spellable. -/
theorem spellable_fieldsAbbreviated (hname : (Operand.typeVar name).Spellable)
    (fields : Fields String) (hspellable : ∀ part ∈ fieldsParts fields, part.Spellable)
    (count : Nat) : ∀ part ∈ fieldsParts (fieldsAbbreviated name fields count), part.Spellable := by
  match fields with
  | [] => exact hspellable
  | (label, type) :: rest =>
      rw [fieldsParts, List.forall_mem_append] at hspellable
      rw [fieldsAbbreviated, fieldsParts, List.forall_mem_append]
      exact ⟨spellable_abbreviated hname type hspellable.1 count,
        spellable_fieldsAbbreviated hname rest hspellable.2 count⟩
end

mutual
/-- The names in an abbreviated operand denote what they stand for, if that is each record that
`count` records enclose. -/
theorem resolved_abbreviated (operand : Operand String) (count : Nat)
    (hwritable : ∀ part ∈ operand.parts, part.Writable)
    (hname : ∀ fields, .record fields ∈ operand.innerParts count → ofName name = .record fields) :
    (operand.abbreviated name count).resolved = operand := by
  cases operand with
  | record fields =>
      cases count with
      | zero => exact hname fields (mem_parts_self _)
      | succ outer =>
          rw [parts, List.forall_mem_cons] at hwritable
          rw [abbreviated, resolved,
            resolved_fieldsAbbreviated fields outer hwritable.2 fun inner hinner =>
              hname inner (by rwa [innerParts])]
  | _ => exact resolved_eq_self _ hwritable

/-- The names in the types of abbreviated fields denote what they stand for. -/
theorem resolved_fieldsAbbreviated (fields : Fields String) (count : Nat)
    (hwritable : ∀ part ∈ fieldsParts fields, part.Writable)
    (hname : ∀ inner, .record inner ∈ fieldsInnerParts fields count →
      ofName name = .record inner) :
    fieldsResolved (fieldsAbbreviated name fields count) = fields := by
  match fields with
  | [] => rfl
  | (label, type) :: rest =>
      rw [fieldsParts, List.forall_mem_append] at hwritable
      rw [fieldsAbbreviated, fieldsResolved,
        resolved_abbreviated type count hwritable.1 fun inner hinner =>
          hname inner (List.mem_append_left _ hinner),
        resolved_fieldsAbbreviated rest count hwritable.2 fun inner hinner =>
          hname inner (List.mem_append_right _ hinner)]
end

end Operand

/-! ## What is enclosed in a text -/

namespace Grammar

open Shape (flatten flattenAll flattenFields flatten_record_eq_ok_iff flatten_var_eq_ok_iff
  flattenAll_cons_eq_ok_iff flattenFields_cons_eq_ok_iff)

mutual
/-- A record that encloses as many records as a text may hold in each other is not written as a
record, but as the name of the composite type. -/
theorem named_of_flatten (phrase : Phrase) (count : Nat) (hdepth : phrase.depth ≤ count)
    (operands : List (Operand String))
    (h : flatten .relaxed Operand.ofName phrase.term = .ok operands) (fields : Fields String)
    (hfields : .record fields ∈ operands.flatMap (Operand.innerParts · count)) :
    Operand.ofTypeName? "RGBA" = some (.record fields) := by
  cases phrase with
  | name text =>
      simp only [Phrase.term, flatten, Except.ok.injEq] at h
      subst h
      rw [List.flatMap_singleton] at hfields
      exact Operand.ofTypeName?_of_mem_parts_ofName (Operand.innerParts_subset _ count hfields)
  | record call list closing =>
      rw [Phrase.term, flatten_record_eq_ok_iff] at h
      obtain ⟨-, described, hdescribed, rfl⟩ := h
      rw [List.flatMap_singleton] at hfields
      cases count with
      | zero => simp [Phrase.depth] at hdepth
      | succ outer =>
          exact named_of_flattenFields list outer (Nat.le_of_succ_le_succ hdepth) described
            hdescribed fields hfields
  | group opening members closing =>
      rw [Phrase.term, flatten] at h
      exact named_of_flattenAll members count hdepth operands h fields hfields
  | var call lower comma upper closing =>
      rw [Phrase.term, flatten_var_eq_ok_iff] at h
      obtain ⟨-, rfl⟩ := h
      rw [List.flatMap_singleton] at hfields
      have hmem := Operand.innerParts_subset _ count hfields
      simp [Operand.parts] at hmem
  | _ =>
      simp only [Phrase.term, flatten, Except.ok.injEq] at h
      subst h
      rw [List.flatMap_singleton] at hfields
      have hmem := Operand.innerParts_subset _ count hfields
      simp [Operand.parts] at hmem

/-- Such a record among operands is the composite type with a name. -/
theorem named_of_flattenAll (phrases : PhraseList) (count : Nat) (hdepth : phrases.depth ≤ count)
    (operands : List (Operand String))
    (h : flattenAll .relaxed Operand.ofName phrases.terms = .ok operands) (fields : Fields String)
    (hfields : .record fields ∈ operands.flatMap (Operand.innerParts · count)) :
    Operand.ofTypeName? "RGBA" = some (.record fields) := by
  cases phrases with
  | last operand =>
      rw [PhraseList.terms, flattenAll_cons_eq_ok_iff] at h
      obtain ⟨first, others, hfirst, hothers, rfl⟩ := h
      rw [Shape.flattenAll, Except.ok.injEq] at hothers
      subst hothers
      rw [List.append_nil] at hfields
      exact named_of_flatten operand count hdepth first hfirst fields hfields
  | more operand comma rest =>
      rw [PhraseList.terms, flattenAll_cons_eq_ok_iff] at h
      obtain ⟨first, others, hfirst, hothers, rfl⟩ := h
      obtain ⟨hoperand, hrest⟩ := Nat.max_le.1 hdepth
      rw [List.flatMap_append, List.mem_append] at hfields
      rcases hfields with hfields | hfields
      · exact named_of_flatten operand count hoperand first hfirst fields hfields
      · exact named_of_flattenAll rest count hrest others hothers fields hfields

/-- Such a record in the types of fields is the composite type with a name. -/
theorem named_of_flattenFields (list : FieldList) (count : Nat) (hdepth : list.depth ≤ count)
    (described : Fields String)
    (h : flattenFields .relaxed Operand.ofName list.terms = .ok described) (fields : Fields String)
    (hfields : .record fields ∈ Operand.fieldsInnerParts described count) :
    Operand.ofTypeName? "RGBA" = some (.record fields) := by
  cases list with
  | last label equals type =>
      rw [FieldList.terms, flattenFields_cons_eq_ok_iff] at h
      obtain ⟨operand, others, hoperand, hothers, rfl⟩ := h
      rw [Shape.flattenFields, Except.ok.injEq] at hothers
      subst hothers
      rw [Operand.fieldsInnerParts, Operand.fieldsInnerParts, List.append_nil] at hfields
      exact named_of_flatten type count hdepth [operand] hoperand fields (by simpa using hfields)
  | more label equals type comma rest =>
      rw [FieldList.terms, flattenFields_cons_eq_ok_iff] at h
      obtain ⟨operand, others, hoperand, hothers, rfl⟩ := h
      obtain ⟨htype, hrest⟩ := Nat.max_le.1 hdepth
      rw [Operand.fieldsInnerParts, List.mem_append] at hfields
      rcases hfields with hfields | hfields
      · exact named_of_flatten type count htype [operand] hoperand fields (by simpa using hfields)
      · exact named_of_flattenFields rest count hrest others hothers fields hfields
end

end Grammar

namespace Shape

open Grammar

variable {options : Options} {source : String} {shape : Shape String}

/-! ## Options filter -/

/-- Parts pass the checks when bounds are in order and labels are distinct, as far as the options
ask for it. -/
theorem forall_passes_iff :
    (∀ part ∈ shape.parts, part.Passes options) ↔
      (options.validateBounds = true →
        ∀ lower upper, .var lower upper ∈ shape.parts → lower ≤ upper) ∧
      (options.allowRepeats = false →
        ∀ fields, .record fields ∈ shape.parts → (fields.map Prod.fst).Nodup) := by
  constructor
  · intro h
    exact ⟨fun hvalidate lower upper hvar => h _ hvar hvalidate,
      fun hallow fields hfields => h _ hfields hallow⟩
  · intro h part hpart
    obtain ⟨hbounds, hlabels⟩ := h
    cases part with
    | var lower upper => exact fun hvalidate => hbounds hvalidate lower upper hpart
    | record fields => exact fun hallow => hlabels hallow fields hpart
    | _ => trivial

/-- A text describes a shape under some options exactly when it describes it without checks and the
shape passes the checks. -/
theorem parse_eq_ok_iff_relaxed :
    parse options source = .ok shape ↔
      parse .relaxed source = .ok shape ∧ ∀ part ∈ shape.parts, part.Passes options := by
  rw [parse_eq_ok_iff, parse_eq_ok_iff]
  constructor
  · intro h
    obtain ⟨phrases, hitems, hfits, hdepth, hflatten⟩ := h
    obtain ⟨hrelaxed, hpasses⟩ :=
      (flattenAll_ok_iff (Operand.passes_ofName options) _ _).1 hflatten
    exact ⟨⟨phrases, hitems, hfits, hdepth, hrelaxed⟩, hpasses⟩
  · intro h
    obtain ⟨⟨phrases, hitems, hfits, hdepth, hrelaxed⟩, hpasses⟩ := h
    exact ⟨phrases, hitems, hfits, hdepth,
      (flattenAll_ok_iff (Operand.passes_ofName options) _ _).2 ⟨hrelaxed, hpasses⟩⟩

/-- A text is not well formed under any options exactly when no tree of terms is read from it. -/
theorem parse_eq_malformed_iff {error : ParseError} :
    parse options source = .error (.malformed error) ↔ Tree.parse source = .error error := by
  unfold parse
  cases Tree.parse source with
  | error first => simp
  | ok tree => cases hshape : resolve options tree <;> simp [hshape]

/-- Options filter what texts describe. A text describes a shape under some options exactly when it
describes the shape without any check, bounds are in order if the options ask for it, and labels are
distinct if they ask for it. A text that is not well formed is rejected for the same reason under
all options, before anything that it describes is checked; and a text that describes no shape
without checks describes none under any options. -/
theorem parse_filter (options : Options) (source : String) :
    (∀ shape, parse options source = .ok shape ↔
      parse .relaxed source = .ok shape ∧
        (options.validateBounds = true →
          ∀ lower upper, .var lower upper ∈ shape.parts → lower ≤ upper) ∧
        (options.allowRepeats = false →
          ∀ fields, .record fields ∈ shape.parts → (fields.map Prod.fst).Nodup)) ∧
    (∀ error, parse options source = .error (.malformed error) ↔
      Tree.parse source = .error error) ∧
    ∀ error, parse .relaxed source = .error (.invalid error) →
      ∃ other, parse options source = .error (.invalid other) := by
  refine ⟨fun shape => ?_, fun error => parse_eq_malformed_iff, fun error herror => ?_⟩
  · rw [parse_eq_ok_iff_relaxed, forall_passes_iff]
  · cases hparse : parse options source with
    | ok shape =>
        have hrelaxed := (parse_eq_ok_iff_relaxed.1 hparse).1
        rw [herror] at hrelaxed
        cases hrelaxed
    | error found =>
        cases found with
        | invalid other => exact ⟨other, rfl⟩
        | malformed first =>
            have hrelaxed : parse .relaxed source = .error (.malformed first) :=
              parse_eq_malformed_iff.2 (parse_eq_malformed_iff.1 hparse)
            rw [herror] at hrelaxed
            cases hrelaxed

/-- Bounds that are not in order describe a range without checks, and none where bounds are
checked. -/
example : (parse .relaxed "Var(2, 1)").toOption = some ⟨[.var 2 1]⟩ ∧
    (parse {} "Var(2, 1)").toOption = none := by
  decide +kernel

/-! ## The image -/

/-- A shape with a name in the place of each record that as many records enclose as may lie around
each other. -/
def abbreviated (name : String) (shape : Shape String) : Shape String :=
  ⟨shape.operands.map fun operand => operand.abbreviated name maxRecordDepth⟩

/-- The records of an abbreviated shape do not lie inside too many others. -/
theorem recordDepth_abbreviated_le (name : String) (shape : Shape String) :
    (shape.abbreviated name).recordDepth ≤ maxRecordDepth := by
  unfold abbreviated recordDepth
  induction shape.operands with
  | nil => exact Nat.zero_le _
  | cons operand rest ih =>
      exact Nat.max_le.2 ⟨Operand.recordDepth_abbreviated_le operand maxRecordDepth, ih⟩

/-- A shape is read from the printed form of its abbreviation, if it has an operand, its parts are
writable and pass the checks, and the name stands for each record that lies inside too many
others. -/
theorem parse_text_abbreviated {name : String} (hne : shape.operands ≠ [])
    (hparts : ∀ part ∈ shape.parts, part.Writable ∧ part.Passes options)
    (hname : (Operand.typeVar name).Spellable)
    (hinner : ∀ fields, .record fields ∈ shape.innerParts maxRecordDepth →
      Operand.ofName name = .record fields) :
    parse options (shape.abbreviated name).text = .ok shape := by
  have hresolved : (shape.abbreviated name).operands.map Operand.resolved = shape.operands := by
    rw [abbreviated, List.map_map]
    refine (List.map_congr_left fun operand hoperand => ?_).trans (List.map_id _)
    refine Operand.resolved_abbreviated operand maxRecordDepth (fun part hpart => ?_)
      fun fields hfields => hinner fields (List.mem_flatMap.2 ⟨operand, hoperand, hfields⟩)
    exact (hparts part (List.mem_flatMap.2 ⟨operand, hoperand, hpart⟩)).1
  have hspellable : ∀ part ∈ (shape.abbreviated name).parts, part.Spellable := by
    intro part hpart
    obtain ⟨short, hshort, hpart⟩ := List.mem_flatMap.1 hpart
    obtain ⟨operand, hoperand, rfl⟩ := List.mem_map.1 hshort
    refine Operand.spellable_abbreviated hname operand (fun inner hpart => ?_) _ part hpart
    exact (hparts inner (List.mem_flatMap.2 ⟨operand, hoperand, hpart⟩)).1.spellable
  obtain ⟨phrases, hitems, hfits, hdepth, hflatten⟩ :=
    exists_derivation_of_spellable (by simpa [abbreviated] using hne) hspellable
  rw [hresolved] at hflatten
  refine parse_eq_ok_iff.2 ⟨phrases, hitems, hfits, ?_, ?_⟩
  · rw [hdepth]
    exact recordDepth_abbreviated_le name shape
  · exact (flattenAll_ok_iff (Operand.passes_ofName options) _ _).2
      ⟨hflatten, fun part hpart => (hparts part hpart).2⟩

/-- Parts are writable when type variables are identifiers that are no keywords and stand for
nothing else, records have fields with identifiers as labels, and enumerations have values. -/
theorem forall_writable_iff :
    (∀ part ∈ shape.parts, part.Writable) ↔
      (∀ name, .typeVar name ∈ shape.parts →
        Text.isIdentifier name = true ∧ Keyword.ofText? name = none ∧
          DType.ofName? name = none ∧ Operand.ofTypeName? name = none) ∧
      (∀ fields, .record fields ∈ shape.parts →
        fields ≠ [] ∧ ∀ field ∈ fields, Text.isIdentifier field.1 = true) ∧
      (∀ values, .enum values ∈ shape.parts → values ≠ []) := by
  constructor
  · intro h
    exact ⟨fun name hname => h _ hname, fun fields hfields => h _ hfields,
      fun values hvalues => h _ hvalues⟩
  · intro h part hpart
    obtain ⟨hnames, hrecords, henums⟩ := h
    cases part with
    | typeVar name => exact hnames name hpart
    | record fields => exact hrecords fields hpart
    | enum values => exact henums values hpart
    | _ => trivial

/-- Some text describes a shape exactly when the shape has an operand, its parts are writable and
pass the checks, and each record inside too many others is the composite type with a name. -/
theorem exists_parse_iff_parts :
    (∃ source, parse options source = .ok shape) ↔
      shape.operands ≠ [] ∧ (∀ part ∈ shape.parts, part.Writable ∧ part.Passes options) ∧
        ∀ fields, .record fields ∈ shape.innerParts maxRecordDepth →
          Operand.ofTypeName? "RGBA" = some (.record fields) := by
  constructor
  · intro h
    obtain ⟨source, hparse⟩ := h
    obtain ⟨hne, hparts⟩ := writable_of_parse hparse
    obtain ⟨phrases, -, -, hdepth, hflatten⟩ :=
      parse_eq_ok_iff.1 (parse_eq_ok_iff_relaxed.1 hparse).1
    exact ⟨hne, hparts, named_of_flattenAll phrases maxRecordDepth hdepth shape.operands hflatten⟩
  · intro h
    obtain ⟨hne, hparts, hinner⟩ := h
    refine ⟨(shape.abbreviated "RGBA").text,
      parse_text_abbreviated hne hparts ⟨by decide, by decide⟩ fun fields hfields => ?_⟩
    have hscalar : DType.ofName? "RGBA" = none := by decide
    rw [Operand.ofName, hscalar, hinner fields hfields, Option.getD_some]

/-- Some text describes a shape exactly when the shape has an operand; its type variables are
identifiers that are no keywords and stand for nothing else; its records have fields, and
identifiers as labels; its enumerations have values; every record inside `maxRecordDepth` others is
the composite type `RGBA`; and, as far as the options ask for it, bounds are in order and labels are
distinct. -/
theorem exists_parse_iff (options : Options) (shape : Shape String) :
    (∃ source, parse options source = .ok shape) ↔
      shape.operands ≠ [] ∧
      (∀ name, .typeVar name ∈ shape.parts →
        Text.isIdentifier name = true ∧ Keyword.ofText? name = none ∧
          DType.ofName? name = none ∧ Operand.ofTypeName? name = none) ∧
      (∀ fields, .record fields ∈ shape.parts →
        fields ≠ [] ∧ ∀ field ∈ fields, Text.isIdentifier field.1 = true) ∧
      (∀ values, .enum values ∈ shape.parts → values ≠ []) ∧
      (∀ fields, .record fields ∈ shape.innerParts maxRecordDepth →
        Operand.ofTypeName? "RGBA" = some (.record fields)) ∧
      (options.validateBounds = true →
        ∀ lower upper, .var lower upper ∈ shape.parts → lower ≤ upper) ∧
      (options.allowRepeats = false →
        ∀ fields, .record fields ∈ shape.parts → (fields.map Prod.fst).Nodup) := by
  rw [exists_parse_iff_parts]
  constructor
  · intro h
    obtain ⟨hne, hparts, hinner⟩ := h
    obtain ⟨hnames, hrecords, henums⟩ :=
      forall_writable_iff.1 fun part hpart => (hparts part hpart).1
    exact ⟨hne, hnames, hrecords, henums, hinner,
      forall_passes_iff.1 fun part hpart => (hparts part hpart).2⟩
  · intro h
    obtain ⟨hne, hnames, hrecords, henums, hinner, hpasses⟩ := h
    have hwritable := forall_writable_iff.2 ⟨hnames, hrecords, henums⟩
    exact ⟨hne, fun part hpart => ⟨hwritable part hpart, forall_passes_iff.2 hpasses part hpart⟩,
      hinner⟩

end Shape

end ArrayShape
