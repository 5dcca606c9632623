import ArrayShape.Proofs.Checks
import ArrayShape.Proofs.Regrouping
import ArrayShape.Tree.Parts

/-!
# The first fault of a tree

A tree is rejected for the first of its checks that fails (`Shape.ofTree_firstFault`). `Tree.checks`
lists the checks of a tree in the order of its text, whether they fail or not: the labels of a
record are looked at before its fields, and the number of operands in the type of a field behind
everything inside the type. `Check.fault?` says when a check fails, and with which error.
-/

namespace ArrayShape

/-! ## Checks in order -/

/-- Something that a tree must satisfy at one place, with what is looked at there. -/
inductive Check (Name : Type) where
  /-- The bounds of a range are in order. -/
  | bounds (range : ByteRange) (lower upper : UInt64)
  /-- The labels of a record are distinct. -/
  | labels (range : ByteRange) (labels : List (Spanned Name))
  /-- The type of a field, which is a group, holds one operand. -/
  | single (range : ByteRange) (members : List (Term Name))

variable {Name : Type}

namespace Term

/-- The check of a term that is the type of a field. -/
def typeChecks : Term Name → List (Check Name)
  | .group range members => [.single range members]
  | .name _ _ | .number _ _ | .record _ _ | .enum _ _ | .var _ _ _ => []

mutual
/-- The checks of a term and of all the terms inside it, in order. -/
def checks : Term Name → List (Check Name)
  | .name _ _ | .number _ _ | .enum _ _ => []
  | .record range fields => .labels range (fields.map Prod.fst) :: fieldsChecks fields
  | .var range lower upper => [.bounds range lower.value upper.value]
  | .group _ members => membersChecks members

/-- The checks of terms, one term after another. -/
def membersChecks : List (Term Name) → List (Check Name)
  | [] => []
  | member :: rest => member.checks ++ membersChecks rest

/-- The checks of the types of fields, one after another. -/
def fieldsChecks : TermFields Name → List (Check Name)
  | [] => []
  | (_, type) :: rest => (type.checks ++ type.typeChecks) ++ fieldsChecks rest
end

/-- A term is looked at by a check, whatever is around it. -/
inductive LookedAt : Term Name → Check Name → Prop where
  | bounds (range lower upper) :
    LookedAt (.var range lower upper) (.bounds range lower.value upper.value)
  | labels (range fields) : LookedAt (.record range fields) (.labels range (fields.map Prod.fst))
  | single (outer) {fields label range members} : (label, .group range members) ∈ fields →
    LookedAt (.record outer fields) (.single range members)

end Term

/-- The checks of a tree, in order. -/
def Tree.checks (tree : Tree Name) : List (Check Name) :=
  Term.membersChecks tree.terms

/-- The values that stand among the values before them. -/
def Spanned.repeated [DecidableEq Name] (labels : List (Spanned Name)) : List (Spanned Name) :=
  (labels.zipIdx.filter fun (label, position) =>
    label.value ∈ (labels.take position).map Spanned.value).map Prod.fst

/-- The error of a check that fails under some options. -/
def Check.fault? [DecidableEq Name] (options : Options) : Check Name → Option (CheckError Name)
  | .bounds range lower upper =>
    if options.validateBounds = true ∧ upper < lower then some (.invertedBounds range lower upper)
    else none
  | .labels range names =>
    if options.allowRepeats = false ∧ ¬ (names.map Spanned.value).Nodup then
      some (.repeatedLabels range (Spanned.repeated names))
    else none
  | .single range members =>
    if (Term.leavesAll members).length = 1 then none
    else some (.notOneOperand range (Term.leavesAll members).length)

/-! ## Every check is listed -/

namespace Term

/-- A field whose type is a group is looked at. -/
theorem mem_typeChecks_iff {type : Term Name} {check : Check Name} :
    check ∈ type.typeChecks ↔
      ∃ range members, .group range members = type ∧ check = .single range members := by
  cases type with
  | group range members =>
      rw [typeChecks, List.mem_singleton]
      constructor
      · intro h
        exact ⟨range, members, rfl, h⟩
      · intro h
        obtain ⟨_, _, hgroup, rfl⟩ := h
        cases hgroup
        rfl
  | name | number | record | enum | var => simp [typeChecks]

mutual
/-- The checks of a term are those that look at a part of it. -/
theorem mem_checks_iff (term : Term Name) (check : Check Name) :
    check ∈ term.checks ↔ ∃ part ∈ term.parts, part.LookedAt check := by
  cases term with
  | name | number | enum =>
      simp only [checks, parts, List.not_mem_nil, List.mem_singleton, exists_eq_left, false_iff]
      exact nofun
  | record range fields =>
      rw [checks, parts, List.mem_cons, mem_fieldsChecks_iff fields check]
      constructor
      · intro h
        obtain rfl | ⟨part, hpart, hlooked⟩ | ⟨label, inner, members, hfield, rfl⟩ := h
        · exact ⟨_, List.mem_cons_self, .labels range fields⟩
        · exact ⟨part, List.mem_cons_of_mem _ hpart, hlooked⟩
        · exact ⟨_, List.mem_cons_self, .single range hfield⟩
      · intro h
        obtain ⟨part, hpart, hlooked⟩ := h
        obtain rfl | hpart := List.mem_cons.1 hpart
        · cases hlooked with
          | labels => exact .inl rfl
          | single outer hfield => exact .inr (.inr ⟨_, _, _, hfield, rfl⟩)
        · exact .inr (.inl ⟨part, hpart, hlooked⟩)
  | var range lower upper =>
      simp only [checks, parts, List.mem_singleton, exists_eq_left]
      constructor
      · intro h
        subst h
        exact .bounds range lower upper
      · intro h
        cases h
        rfl
  | group range members =>
      rw [checks, parts, mem_membersChecks_iff members check]
      simp only [List.mem_cons, exists_eq_or_imp, iff_or_self]
      exact nofun

/-- The checks of terms are those that look at a part of one of them. -/
theorem mem_membersChecks_iff (terms : List (Term Name)) (check : Check Name) :
    check ∈ membersChecks terms ↔ ∃ part ∈ membersParts terms, part.LookedAt check := by
  match terms with
  | [] => simp [membersChecks, membersParts]
  | term :: rest =>
      rw [membersChecks, membersParts, List.mem_append, mem_checks_iff term check,
        mem_membersChecks_iff rest check]
      simp only [List.mem_append, or_and_right, exists_or]

/-- The checks of fields are those that look at a part of a type, or at a type that is a group. -/
theorem mem_fieldsChecks_iff (fields : TermFields Name) (check : Check Name) :
    check ∈ fieldsChecks fields ↔ (∃ part ∈ fieldsParts fields, part.LookedAt check) ∨
      ∃ label range members, (label, .group range members) ∈ fields ∧
        check = .single range members := by
  match fields with
  | [] => simp [fieldsChecks, fieldsParts]
  | (label, type) :: rest =>
      have hgroup : (∃ other range members,
          (other, .group range members) ∈ (label, type) :: rest ∧ check = .single range members) ↔
          (∃ range members, .group range members = type ∧ check = .single range members) ∨
            ∃ other range members, (other, .group range members) ∈ rest ∧
              check = .single range members := by
        simp only [List.mem_cons, Prod.mk.injEq, or_and_right, exists_or, and_assoc,
          exists_and_left, exists_eq_left]
      rw [fieldsChecks, fieldsParts, List.mem_append, List.mem_append, mem_checks_iff type check,
        mem_fieldsChecks_iff rest check, mem_typeChecks_iff, hgroup]
      simp only [List.mem_append, or_and_right, exists_or]
      exact or_or_or_comm
end

end Term

namespace Shape

/-! ## Results and faults -/

section Results

variable {α β : Type} {result : Except (CheckError Name) α} {fault other : Option (CheckError Name)}

/-- A result is the error of a fault, and a value if there is no fault. -/
def FailsFor (result : Except (CheckError Name) α) (fault : Option (CheckError Name)) : Prop :=
  ∀ error, result = .error error ↔ fault = some error

/-- A value has no fault. -/
theorem failsFor_ok (value : α) : FailsFor (.ok value : Except (CheckError Name) α) none := by
  simp [FailsFor]

/-- An error is its fault. -/
theorem failsFor_error (error : CheckError Name) :
    FailsFor (.error error : Except (CheckError Name) α) (some error) := by
  simp [FailsFor]

/-- Without a fault there is a value. -/
theorem FailsFor.exists_ok_iff (h : FailsFor result fault) :
    (∃ value, result = .ok value) ↔ fault = none := by
  cases result with
  | error error => simp [(h error).1 rfl]
  | ok value =>
      cases fault with
      | none => simp
      | some error => cases (h error).2 rfl

/-- Changing a value leaves the fault. -/
theorem FailsFor.map (f : α → β) (h : FailsFor result fault) : FailsFor (result.map f) fault := by
  intro error
  rw [← h error]
  cases result <;> simp [Except.map]

/-- Of two results one after another, the first fault is the fault. -/
theorem FailsFor.bind {f : α → Except (CheckError Name) β} (h : FailsFor result fault)
    (hf : ∀ value, result = .ok value → FailsFor (f value) other) :
    FailsFor (result.bind f) (fault.or other) := by
  cases result with
  | error error =>
      rw [(h error).1 rfl]
      exact failsFor_error error
  | ok value =>
      rw [h.exists_ok_iff.1 ⟨value, rfl⟩, Option.none_or]
      exact hf value rfl

/-- A list fails in a place that has room for one if it does not hold one. -/
theorem failsFor_single (range : ByteRange) (operands : List (Operand Name)) :
    FailsFor (single range operands)
      (if operands.length = 1 then none else some (.notOneOperand range operands.length)) := by
  cases operands with
  | nil => exact failsFor_error _
  | cons operand rest =>
      cases rest with
      | nil => exact failsFor_ok operand
      | cons other others => simpa [single] using failsFor_error _

end Results

variable [DecidableEq Name] {options : Options} {resolve : Name → Operand Name}

/-! ## Repeated labels -/

/-- The labels that were seen, or that stand behind others that were, are found by their places. -/
theorem repeatsAfter_eq_filter {seen : List Name} {before : List (Spanned Name)}
    (hseen : ∀ name, name ∈ seen ↔ name ∈ before.map Spanned.value) (labels : List (Spanned Name)) :
    repeatsAfter seen labels = ((labels.zipIdx before.length).filter fun (label, position) =>
      label.value ∈ ((before ++ labels).take position).map Spanned.value).map Prod.fst := by
  induction labels generalizing seen before with
  | nil => rfl
  | cons label rest ih =>
      have hnext : ∀ name, name ∈ label.value :: seen ↔
          name ∈ (before ++ [label]).map Spanned.value := by
        intro name
        simp [hseen, or_comm]
      have hrest := ih hnext
      rw [List.length_append, List.length_singleton, List.append_assoc,
        List.singleton_append] at hrest
      rw [repeatsAfter, List.zipIdx_cons, List.filter_cons, hrest]
      simp only [List.take_left, List.contains_eq_mem, hseen]
      split <;> rfl

/-- The labels that an earlier field has too stand among the labels before them. -/
theorem repeats_eq_repeated (fields : TermFields Name) :
    repeats fields = Spanned.repeated (fields.map Prod.fst) := by
  have hseen : ∀ name, name ∈ ([] : List Name) ↔
      name ∈ ([] : List (Spanned Name)).map Spanned.value := by simp
  exact repeatsAfter_eq_filter hseen (fields.map Prod.fst)

/-- The labels of a record fail if one of them is repeated. -/
theorem fault?_labels (range : ByteRange) (fields : TermFields Name) :
    (Check.labels range (fields.map Prod.fst)).fault? options =
      match options.allowRepeats, repeats fields with
      | false, label :: others => some (.repeatedLabels range (label :: others))
      | _, _ => none := by
  have hdistinct : ((fields.map Prod.fst).map Spanned.value).Nodup ↔ repeats fields = [] := by
    rw [repeats_eq_nil_iff, List.map_map]
    rfl
  simp only [Check.fault?, hdistinct, ← repeats_eq_repeated]
  cases options.allowRepeats <;> cases repeats fields <;> simp

/-! ## The first check that fails -/

mutual
/-- A term describes as many operands as it has leaves. -/
theorem length_of_flatten (term : Term Name) {operands : List (Operand Name)}
    (h : flatten options resolve term = .ok operands) :
    operands.length = term.leaves.length := by
  cases term with
  | group range members =>
      rw [flatten] at h
      exact length_of_flattenAll members h
  | record range fields =>
      obtain ⟨-, described, -, rfl⟩ := flatten_record_eq_ok_iff.1 h
      rfl
  | var range lower upper =>
      obtain ⟨-, rfl⟩ := flatten_var_eq_ok_iff.1 h
      rfl
  | name | number | enum =>
      rw [flatten, Except.ok.injEq] at h
      subst h
      rfl

/-- Terms describe as many operands as they have leaves. -/
theorem length_of_flattenAll (terms : List (Term Name)) {operands : List (Operand Name)}
    (h : flattenAll options resolve terms = .ok operands) :
    operands.length = (Term.leavesAll terms).length := by
  match terms with
  | [] =>
      rw [flattenAll, Except.ok.injEq] at h
      subst h
      rfl
  | term :: rest =>
      obtain ⟨first, others, hfirst, hothers, rfl⟩ := flattenAll_cons_eq_ok_iff.1 h
      rw [Term.leavesAll, List.length_append, List.length_append, length_of_flatten term hfirst,
        length_of_flattenAll rest hothers]
end

/-- The first error of checks. -/
def firstFault? (options : Options) (checks : List (Check Name)) : Option (CheckError Name) :=
  checks.findSome? (Check.fault? options)

/-- The first error is that of the first check, or else that of the others. -/
theorem firstFault?_cons (check : Check Name) (rest : List (Check Name)) :
    firstFault? options (check :: rest) =
      (check.fault? options).or (firstFault? options rest) := by
  rw [firstFault?, List.findSome?_cons]
  cases check.fault? options <;> rfl

/-- The first error is in the first checks, or else in the others. -/
theorem firstFault?_append (first second : List (Check Name)) :
    firstFault? options (first ++ second) =
      (firstFault? options first).or (firstFault? options second) :=
  List.findSome?_append

/-- What a type describes fails as the type of a field if it is a group that does not hold one
operand. -/
theorem failsFor_type {type : Term Name} {operands : List (Operand Name)}
    (h : flatten options resolve type = .ok operands) :
    FailsFor (single type.range operands) (firstFault? options type.typeChecks) := by
  have hsingle := failsFor_single type.range operands
  rw [length_of_flatten type h] at hsingle
  cases type with
  | group range members =>
      rw [Term.typeChecks, firstFault?_cons, firstFault?, List.findSome?_nil, Option.or_none]
      exact hsingle
  | name | number | record | enum | var => exact hsingle

mutual
/-- A term fails for the first of its checks that fails. -/
theorem failsFor_flatten (term : Term Name) :
    FailsFor (flatten options resolve term) (firstFault? options term.checks) := by
  cases term with
  | name | number | enum =>
      rw [flatten]
      exact failsFor_ok _
  | record range fields =>
      have hfields : FailsFor (flattenFields options resolve fields)
          (firstFault? options (Term.fieldsChecks fields)) := failsFor_flattenFields fields
      rw [flatten, Term.checks, firstFault?_cons, fault?_labels]
      cases options.allowRepeats with
      | true => exact hfields.map _
      | false =>
          cases repeats fields with
          | nil => exact hfields.map _
          -- The labels are looked at before the fields.
          | cons label others => exact failsFor_error _
  | var range lower upper =>
      rw [flatten, Term.checks, firstFault?_cons, Check.fault?]
      split
      · exact failsFor_error _
      · exact failsFor_ok _
  | group range members =>
      rw [flatten, Term.checks]
      exact failsFor_flattenAll members

/-- Terms fail for the first of their checks that fails. -/
theorem failsFor_flattenAll (terms : List (Term Name)) :
    FailsFor (flattenAll options resolve terms)
      (firstFault? options (Term.membersChecks terms)) := by
  match terms with
  | [] =>
      rw [flattenAll]
      exact failsFor_ok _
  | term :: rest =>
      rw [flattenAll_cons, Term.membersChecks, firstFault?_append]
      exact (failsFor_flatten term).bind fun _ _ => (failsFor_flattenAll rest).map _

/-- Fields fail for the first check of their types that fails. -/
theorem failsFor_flattenFields (fields : TermFields Name) :
    FailsFor (flattenFields options resolve fields)
      (firstFault? options (Term.fieldsChecks fields)) := by
  match fields with
  | [] =>
      rw [flattenFields]
      exact failsFor_ok _
  | (label, type) :: rest =>
      rw [flattenFields_cons, Term.fieldsChecks, firstFault?_append, firstFault?_append]
      have htype := (failsFor_flatten type).bind fun _ h => failsFor_type h
      exact htype.bind fun _ _ => (failsFor_flattenFields rest).map _
end

/-- A tree describes a shape exactly when no part of it is at fault, and else it is rejected for the
first check that fails in the order of the text. The checks are those that look at a part of the
tree: at the bounds of a range, at the labels of a record before anything inside it, and at the
number of operands in a group that is the type of a field behind everything inside it. -/
theorem ofTree_firstFault (options : Options) (resolve : Name → Operand Name) (tree : Tree Name) :
    ((∃ shape, ofTree options resolve tree = .ok shape) ↔
      ∀ part ∈ tree.parts, ∀ check, part.LookedAt check → check.fault? options = none) ∧
    (∀ error, ofTree options resolve tree = .error error ↔
      ∃ before check after, tree.checks = before ++ check :: after ∧
        (∀ earlier ∈ before, earlier.fault? options = none) ∧
          check.fault? options = some error) ∧
    ∀ check, check ∈ tree.checks ↔ ∃ part ∈ tree.parts, part.LookedAt check := by
  have hfails : FailsFor (ofTree options resolve tree) (firstFault? options tree.checks) := by
    rw [ofTree_eq]
    exact (failsFor_flattenAll tree.terms).map Shape.mk
  have hlisted : ∀ check, check ∈ tree.checks ↔ ∃ part ∈ tree.parts, part.LookedAt check :=
    Term.mem_membersChecks_iff tree.terms
  refine ⟨?_, fun error => ?_, hlisted⟩
  · rw [hfails.exists_ok_iff, firstFault?, List.findSome?_eq_none_iff]
    constructor
    · intro h part hpart check hlooked
      exact h check ((hlisted check).2 ⟨part, hpart, hlooked⟩)
    · intro h check hcheck
      obtain ⟨part, hpart, hlooked⟩ := (hlisted check).1 hcheck
      exact h part hpart check hlooked
  · rw [hfails error, firstFault?, List.findSome?_eq_some_iff]
    constructor
    · intro h
      obtain ⟨before, check, after, hchecks, hfault, hbefore⟩ := h
      exact ⟨before, check, after, hchecks, hbefore, hfault⟩
    · intro h
      obtain ⟨before, check, after, hchecks, hbefore, hfault⟩ := h
      exact ⟨before, check, after, hchecks, hfault, hbefore⟩

/-- Where labels may be repeated, the text `Record(a=(N, Var(3, 1)), a=2)` is rejected for the range
in the group, which holds two operands. -/
example : firstFault? ⟨true, true⟩ (Tree.checks ⟨[.record ⟨0, 29⟩
    [(⟨⟨7, 8⟩, "a"⟩, .group ⟨9, 23⟩ [.name ⟨10, 11⟩ "N",
      .var ⟨13, 22⟩ ⟨⟨17, 18⟩, 3⟩ ⟨⟨20, 21⟩, 1⟩]), (⟨⟨25, 26⟩, "a"⟩, .number ⟨27, 28⟩ 2)]]⟩) =
    some (.invertedBounds ⟨13, 22⟩ 3 1) := by
  decide

end Shape

end ArrayShape
