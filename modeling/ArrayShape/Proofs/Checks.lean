import ArrayShape.Proofs.Flattening
import ArrayShape.Shape.Parts

/-!
# The checks are a filter

Options turn checks on and change nothing else. `flatten_ok_iff` says that terms describe
operands under some options exactly when they describe the same operands without any check and
every part of these operands `Passes` the checks that are on. The labels of a record are looked at
before its fields are, but a record that is described has the labels that were looked at.
-/

namespace ArrayShape

/-- No check is on. -/
def Options.relaxed : Options :=
  ⟨false, true⟩

/-- An operand satisfies the checks that are on, apart from the operands inside it. -/
def Operand.Passes {Name : Type} (options : Options) : Operand Name → Prop
  | .record fields => options.allowRepeats = false → (fields.map Prod.fst).Nodup
  | .var lower upper => options.validateBounds = true → lower ≤ upper
  | .integer _ | .typeVar _ | .enum _ | .dtype _ => True

namespace Shape

variable {Name : Type} [DecidableEq Name] {options : Options} {resolve : Name → Operand Name}

/-! ## Repeated labels -/

/-- No label is repeated when labels are distinct, and differ from those that were seen. -/
theorem repeatsAfter_eq_nil_iff {seen : List Name} {labels : List (Spanned Name)} :
    repeatsAfter seen labels = [] ↔
      (labels.map (·.value)).Nodup ∧ ∀ label ∈ labels, label.value ∉ seen := by
  induction labels generalizing seen with
  | nil => simp [repeatsAfter]
  | cons label rest ih =>
      by_cases hseen : label.value ∈ seen
      · simp [repeatsAfter, hseen]
      · simp only [repeatsAfter, List.contains_eq_mem, hseen, decide_false, Bool.false_eq_true,
          if_false, ih, List.map_cons, List.nodup_cons, List.mem_map, List.mem_cons]
        constructor
        · intro h
          obtain ⟨hnodup, hrest⟩ := h
          refine ⟨⟨?_, hnodup⟩, ?_⟩
          · intro h
            obtain ⟨other, hother, heq⟩ := h
            exact hrest other hother (.inl heq)
          · intro other hother
            rcases hother with rfl | hother
            · exact hseen
            · exact fun hmem => hrest other hother (.inr hmem)
        · intro h
          obtain ⟨⟨hlabel, hnodup⟩, hrest⟩ := h
          refine ⟨hnodup, fun other hother hagain => ?_⟩
          rcases hagain with heq | hmem
          · exact hlabel ⟨other, hother, heq⟩
          · exact hrest other (.inr hother) hmem

/-- No label of a record is repeated exactly when its labels are distinct. -/
theorem repeats_eq_nil_iff {fields : TermFields Name} :
    repeats fields = [] ↔ (fields.map (·.1.value)).Nodup := by
  rw [repeats, repeatsAfter_eq_nil_iff]
  simp [Function.comp_def]

/-! ## What each kind of term needs -/

omit [DecidableEq Name] in
/-- A list has a single operand exactly when it is the list of that operand. -/
theorem single_eq_ok_iff {range : ByteRange} {operands : List (Operand Name)}
    {operand : Operand Name} : single range operands = .ok operand ↔ operands = [operand] := by
  cases operands with
  | nil => simp [single]
  | cons first rest => cases rest <;> simp [single]

/-- A record is described by the description of its fields, if its labels are allowed. -/
theorem flatten_record_eq_ok_iff {range : ByteRange} {fields : TermFields Name}
    {operands : List (Operand Name)} :
    flatten options resolve (.record range fields) = .ok operands ↔
      (options.allowRepeats = false → repeats fields = []) ∧
        ∃ described, flattenFields options resolve fields = .ok described ∧
          operands = [.record described] := by
  rw [flatten]
  cases options.allowRepeats <;> cases repeats fields <;>
    cases flattenFields options resolve fields <;> simp [Except.map, eq_comm]

/-- A range is described by its bounds, if they are allowed. -/
theorem flatten_var_eq_ok_iff {range : ByteRange} {lower upper : Spanned UInt64}
    {operands : List (Operand Name)} :
    flatten options resolve (.var range lower upper) = .ok operands ↔
      (options.validateBounds = true → lower.value ≤ upper.value) ∧
        operands = [.var lower.value upper.value] := by
  rw [flatten]
  by_cases hbounds : options.validateBounds = true ∧ upper.value < lower.value
  · obtain ⟨hvalidate, hlt⟩ := hbounds
    simp [hvalidate, hlt, UInt64.not_le.2 hlt]
  · have hallowed : options.validateBounds = true → lower.value ≤ upper.value :=
      fun hvalidate => UInt64.not_lt.1 fun hlt => hbounds ⟨hvalidate, hlt⟩
    rw [if_neg hbounds, Except.ok.injEq]
    exact ⟨fun heq => ⟨hallowed, heq.symm⟩, fun heq => heq.2.symm⟩

/-- Terms are described by what they contribute one after another. -/
theorem flattenAll_cons_eq_ok_iff {term : Term Name} {rest : List (Term Name)}
    {operands : List (Operand Name)} :
    flattenAll options resolve (term :: rest) = .ok operands ↔
      ∃ first others, flatten options resolve term = .ok first ∧
        flattenAll options resolve rest = .ok others ∧ operands = first ++ others := by
  rw [flattenAll]
  cases flatten options resolve term <;> cases flattenAll options resolve rest <;>
    simp [Except.map, eq_comm]

/-- Fields are described by the single operands that their types contribute. -/
theorem flattenFields_cons_eq_ok_iff {label : Spanned Name} {type : Term Name}
    {rest : TermFields Name} {described : Fields Name} :
    flattenFields options resolve ((label, type) :: rest) = .ok described ↔
      ∃ operand others, flatten options resolve type = .ok [operand] ∧
        flattenFields options resolve rest = .ok others ∧
          described = (label.value, operand) :: others := by
  rw [flattenFields]
  cases flatten options resolve type with
  | error error => simp [Except.bind]
  | ok operands =>
      simp only [Except.bind, Except.ok.injEq]
      cases hsingle : single type.range operands with
      | error error =>
          have hne : ∀ operand, operands ≠ [operand] := fun operand heq => by
            rw [single_eq_ok_iff.2 heq] at hsingle
            cases hsingle
          simp [hne]
      | ok operand =>
          rw [single_eq_ok_iff.1 hsingle]
          cases flattenFields options resolve rest <;> simp [Except.map, eq_comm]

/-- Described fields have the labels that the fields have. -/
theorem labels_of_flattenFields {fields : TermFields Name} {described : Fields Name}
    (h : flattenFields options resolve fields = .ok described) :
    described.map Prod.fst = fields.map (·.1.value) := by
  induction fields generalizing described with
  | nil =>
      rw [flattenFields, Except.ok.injEq] at h
      subst h
      rfl
  | cons field rest ih =>
      obtain ⟨operand, others, -, hothers, rfl⟩ := flattenFields_cons_eq_ok_iff.1 h
      simp [ih hothers]

/-! ## The filter -/

mutual
/-- A term describes operands under some options exactly when it describes them without checks and
their parts pass, given that what names stand for passes. -/
theorem flatten_ok_iff (hresolve : ∀ name, ∀ part ∈ (resolve name).parts, part.Passes options)
    (term : Term Name) (operands : List (Operand Name)) :
    flatten options resolve term = .ok operands ↔
      flatten .relaxed resolve term = .ok operands ∧
        ∀ part ∈ operands.flatMap Operand.parts, part.Passes options := by
  cases term with
  | name range name =>
      simp only [flatten, Except.ok.injEq, iff_self_and]
      intro h
      subst h
      simpa using hresolve name
  | number range value =>
      simp only [flatten, Except.ok.injEq, iff_self_and]
      intro h
      subst h
      simp [Operand.parts, Operand.Passes]
  | record range fields =>
      simp only [flatten_record_eq_ok_iff, flattenFields_ok_iff hresolve fields]
      constructor
      · intro h
        obtain ⟨hrepeats, described, ⟨hdescribed, hparts⟩, rfl⟩ := h
        refine ⟨⟨nofun, described, hdescribed, rfl⟩, ?_⟩
        simp only [List.flatMap_singleton, Operand.parts, List.forall_mem_cons]
        refine ⟨fun hallow => ?_, hparts⟩
        -- The labels are looked at in the fields, which are described with the same labels.
        rw [labels_of_flattenFields hdescribed]
        exact repeats_eq_nil_iff.1 (hrepeats hallow)
      · intro h
        obtain ⟨⟨-, described, hdescribed, rfl⟩, hpasses⟩ := h
        simp only [List.flatMap_singleton, Operand.parts, List.forall_mem_cons] at hpasses
        refine ⟨fun hallow => ?_, described, ⟨hdescribed, hpasses.2⟩, rfl⟩
        rw [repeats_eq_nil_iff, ← labels_of_flattenFields hdescribed]
        exact hpasses.1 hallow
  | enum range values =>
      simp only [flatten, Except.ok.injEq, iff_self_and]
      intro h
      subst h
      simp [Operand.parts, Operand.Passes]
  | var range lower upper =>
      simp only [flatten_var_eq_ok_iff]
      constructor
      · intro h
        obtain ⟨hbounds, rfl⟩ := h
        exact ⟨⟨nofun, rfl⟩, by simpa [Operand.parts, Operand.Passes] using hbounds⟩
      · intro h
        obtain ⟨⟨-, rfl⟩, hpasses⟩ := h
        exact ⟨by simpa [Operand.parts, Operand.Passes] using hpasses, rfl⟩
  | group range members =>
      simp only [flatten]
      exact flattenAll_ok_iff hresolve members operands

/-- Terms describe operands under some options exactly when they describe them without checks and
their parts pass. -/
theorem flattenAll_ok_iff (hresolve : ∀ name, ∀ part ∈ (resolve name).parts, part.Passes options)
    (terms : List (Term Name)) (operands : List (Operand Name)) :
    flattenAll options resolve terms = .ok operands ↔
      flattenAll .relaxed resolve terms = .ok operands ∧
        ∀ part ∈ operands.flatMap Operand.parts, part.Passes options := by
  match terms with
  | [] =>
      simp only [flattenAll, Except.ok.injEq, iff_self_and]
      intro h
      subst h
      exact nofun
  | term :: rest =>
      simp only [flattenAll_cons_eq_ok_iff, flatten_ok_iff hresolve term,
        flattenAll_ok_iff hresolve rest]
      constructor
      · intro h
        obtain ⟨first, others, ⟨hfirst, hpasses⟩, ⟨hothers, hrest⟩, rfl⟩ := h
        refine ⟨⟨first, others, hfirst, hothers, rfl⟩, ?_⟩
        rw [List.flatMap_append, List.forall_mem_append]
        exact ⟨hpasses, hrest⟩
      · intro h
        obtain ⟨⟨first, others, hfirst, hothers, rfl⟩, hpasses⟩ := h
        rw [List.flatMap_append, List.forall_mem_append] at hpasses
        exact ⟨first, others, ⟨hfirst, hpasses.1⟩, ⟨hothers, hpasses.2⟩, rfl⟩

/-- Fields are described under some options exactly when they are described without checks and the
parts of their types pass. -/
theorem flattenFields_ok_iff
    (hresolve : ∀ name, ∀ part ∈ (resolve name).parts, part.Passes options)
    (fields : TermFields Name) (described : Fields Name) :
    flattenFields options resolve fields = .ok described ↔
      flattenFields .relaxed resolve fields = .ok described ∧
        ∀ part ∈ Operand.fieldsParts described, part.Passes options := by
  match fields with
  | [] =>
      simp only [flattenFields, Except.ok.injEq, iff_self_and]
      intro h
      subst h
      exact nofun
  | (label, type) :: rest =>
      simp only [flattenFields_cons_eq_ok_iff, flatten_ok_iff hresolve type,
        flattenFields_ok_iff hresolve rest, List.flatMap_singleton]
      constructor
      · intro h
        obtain ⟨operand, others, ⟨hoperand, hpasses⟩, ⟨hothers, hrest⟩, rfl⟩ := h
        refine ⟨⟨operand, others, hoperand, hothers, rfl⟩, ?_⟩
        rw [Operand.fieldsParts, List.forall_mem_append]
        exact ⟨hpasses, hrest⟩
      · intro h
        obtain ⟨⟨operand, others, hoperand, hothers, rfl⟩, hpasses⟩ := h
        rw [Operand.fieldsParts, List.forall_mem_append] at hpasses
        exact ⟨operand, others, ⟨hoperand, hpasses.1⟩, ⟨hothers, hpasses.2⟩, rfl⟩
end

end Shape

end ArrayShape
