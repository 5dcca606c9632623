import ArrayShape.Proofs.Flattening

/-!
# Groups do not matter

What a tree describes does not depend on how its operands are grouped. `Term.leaves` is what a term
is apart from its groups and its places in the text: the members of a group take its place, and the
type of a field is put into exactly one group. A tree and its leaves describe the same shape, or are
rejected for the same reason at places that may differ (`flatten_leaves`), so that trees with the
same leaves do so too.
-/

namespace ArrayShape

variable {Name : Type}

/-! ## Leaves -/

/-- A value at the start of a text. -/
def Spanned.unplaced {α : Type} (spanned : Spanned α) : Spanned α :=
  ⟨.empty 0, spanned.value⟩

@[simp] theorem Spanned.unplaced_unplaced {α : Type} (spanned : Spanned α) :
    spanned.unplaced.unplaced = spanned.unplaced := rfl

/-- An error at the start of a text. -/
def CheckError.unplaced : CheckError Name → CheckError Name
  | .invertedBounds _ lower upper => .invertedBounds (.empty 0) lower upper
  | .repeatedLabels _ labels => .repeatedLabels (.empty 0) (labels.map Spanned.unplaced)
  | .notOneOperand _ count => .notOneOperand (.empty 0) count

mutual
/-- The operands that a term stands for, without the groups around them and their places. -/
def Term.leaves : Term Name → List (Term Name)
  | .name _ word => [.name (.empty 0) word]
  | .number _ value => [.number (.empty 0) value]
  | .record _ fields => [.record (.empty 0) (leafFields fields)]
  | .enum _ words => [.enum (.empty 0) (words.map Spanned.unplaced)]
  | .var _ lower upper => [.var (.empty 0) lower.unplaced upper.unplaced]
  | .group _ members => leavesAll members

/-- The leaves of terms, one term after another. -/
def Term.leavesAll : List (Term Name) → List (Term Name)
  | [] => []
  | term :: rest => term.leaves ++ leavesAll rest

/-- Fields with the leaves of their types, each in one group. -/
def Term.leafFields : TermFields Name → TermFields Name
  | [] => []
  | (label, type) :: rest => (label.unplaced, .group (.empty 0) type.leaves) :: leafFields rest
end

/-- The leaves of a whole tree. -/
def Tree.leaves (tree : Tree Name) : List (Term Name) :=
  Term.leavesAll tree.terms

/-- Terms one after another have their leaves one after another. -/
theorem Term.leavesAll_append (first second : List (Term Name)) :
    leavesAll (first ++ second) = leavesAll first ++ leavesAll second := by
  induction first with
  | nil => rfl
  | cons term rest ih => simp [leavesAll, ih]

/-- Putting a run of operands into parentheses keeps the leaves. -/
theorem Term.leavesAll_group (range : ByteRange) (before run behind : List (Term Name)) :
    leavesAll (before ++ .group range run :: behind) = leavesAll (before ++ run ++ behind) := by
  simp [leavesAll_append, leavesAll, leaves]

namespace Shape

/-! ## Results apart from places -/

section Alike

variable {α β : Type} {first second : Except (CheckError Name) α}

/-- Two results are the same, or fail for the same reason at places that may differ. -/
def Alike (first second : Except (CheckError Name) α) : Prop :=
  first.mapError CheckError.unplaced = second.mapError CheckError.unplaced

/-- Results that are alike are used alike. -/
theorem Alike.bind {f g : α → Except (CheckError Name) β} (h : Alike first second)
    (hfg : ∀ value, Alike (f value) (g value)) : Alike (first.bind f) (second.bind g) := by
  cases first with
  | error error =>
      cases second with
      | error other => exact congrArg Except.error (Except.error.inj h)
      | ok value => cases h
  | ok value =>
      cases second with
      | error error => cases h
      | ok other =>
          cases h
          exact hfg value

/-- Results that are alike stay so when their values are changed alike. -/
theorem Alike.map (f : α → β) (h : Alike first second) :
    Alike (first.map f) (second.map f) := by
  cases first with
  | error error =>
      cases second with
      | error other => exact congrArg Except.error (Except.error.inj h)
      | ok value => cases h
  | ok value =>
      cases second with
      | error error => cases h
      | ok other =>
          cases h
          rfl

end Alike

variable [DecidableEq Name] {options : Options} {resolve : Name → Operand Name}

/-! ## Leaves are described like their terms -/

/-- Terms are described one after another. -/
theorem flattenAll_cons (term : Term Name) (rest : List (Term Name)) :
    flattenAll options resolve (term :: rest) =
      (flatten options resolve term).bind fun operands =>
        (flattenAll options resolve rest).map (operands ++ ·) := by
  rw [flattenAll]
  cases flatten options resolve term <;> rfl

/-- A single term is described as it is among others. -/
theorem flattenAll_singleton (term : Term Name) :
    flattenAll options resolve [term] = flatten options resolve term := by
  rw [flattenAll_cons]
  cases flatten options resolve term <;> simp [Except.bind, flattenAll, Except.map]

/-- Terms behind others are described behind them. -/
theorem flattenAll_append (first second : List (Term Name)) :
    flattenAll options resolve (first ++ second) =
      (flattenAll options resolve first).bind fun operands =>
        (flattenAll options resolve second).map (operands ++ ·) := by
  induction first with
  | nil =>
      rw [List.nil_append, flattenAll]
      cases flattenAll options resolve second <;> simp [Except.bind, Except.map]
  | cons term rest ih =>
      rw [List.cons_append, flattenAll_cons, flattenAll_cons, ih]
      cases flatten options resolve term with
      | error error => rfl
      | ok operands =>
          cases flattenAll options resolve rest with
          | error error => rfl
          | ok others =>
              cases flattenAll options resolve second <;> simp [Except.bind, Except.map]

/-- Fields are described one after another. -/
theorem flattenFields_cons (label : Spanned Name) (type : Term Name) (rest : TermFields Name) :
    flattenFields options resolve ((label, type) :: rest) =
      ((flatten options resolve type).bind (single type.range)).bind fun operand =>
        (flattenFields options resolve rest).map ((label.value, operand) :: ·) := by
  rw [flattenFields]
  cases (flatten options resolve type).bind (single type.range) <;> rfl

omit [DecidableEq Name] in
/-- Whether a list has a single operand does not depend on the place. -/
theorem alike_single (first second : ByteRange) (operands : List (Operand Name)) :
    Alike (single first operands) (single second operands) := by
  cases operands with
  | nil => rfl
  | cons operand rest => cases rest <;> rfl

/-- Labels without their places are repeated like the labels. -/
theorem repeatsAfter_unplaced (seen : List Name) (labels : List (Spanned Name)) :
    repeatsAfter seen (labels.map Spanned.unplaced) =
      (repeatsAfter seen labels).map Spanned.unplaced := by
  induction labels generalizing seen with
  | nil => rfl
  | cons label rest ih =>
      simp only [List.map_cons, repeatsAfter, Spanned.unplaced] at ih ⊢
      split <;> simp [ih, Spanned.unplaced]

/-- The labels of leaves are repeated like the labels of the fields. -/
theorem repeats_leafFields (fields : TermFields Name) :
    repeats (Term.leafFields fields) = (repeats fields).map Spanned.unplaced := by
  have hlabels : (Term.leafFields fields).map Prod.fst =
      (fields.map Prod.fst).map Spanned.unplaced := by
    induction fields with
    | nil => rfl
    | cons field rest ih => simp [Term.leafFields, ih]
  rw [repeats, hlabels, repeatsAfter_unplaced, repeats]

mutual
/-- The leaves of a term describe what the term describes. -/
theorem flatten_leaves (term : Term Name) :
    Alike (flattenAll options resolve term.leaves) (flatten options resolve term) := by
  cases term with
  | name range name =>
      rw [Term.leaves, flattenAll_singleton, flatten, flatten]
      rfl
  | number range value =>
      rw [Term.leaves, flattenAll_singleton, flatten, flatten]
      rfl
  | record range fields =>
      have hfields : Alike (flattenFields options resolve (Term.leafFields fields))
          (flattenFields options resolve fields) := flattenFields_leaves fields
      rw [Term.leaves, flattenAll_singleton, flatten, flatten, repeats_leafFields]
      cases options.allowRepeats with
      | true => exact hfields.map _
      | false =>
          cases repeats fields with
          | nil => exact hfields.map _
          -- The labels are looked at before the fields.
          | cons label others =>
              show Except.error (CheckError.repeatedLabels _
                (((label :: others).map Spanned.unplaced).map Spanned.unplaced)) = _
              rw [List.map_map]
              rfl
  | enum range values =>
      rw [Term.leaves, flattenAll_singleton, flatten, flatten, List.map_map]
      rfl
  | var range lower upper =>
      rw [Term.leaves, flattenAll_singleton, flatten, flatten]
      by_cases hbounds : options.validateBounds ∧ upper.value < lower.value
      · have hleaf : options.validateBounds ∧ upper.unplaced.value < lower.unplaced.value := hbounds
        rw [if_pos hleaf, if_pos hbounds]
        rfl
      · have hleaf : ¬ (options.validateBounds ∧ upper.unplaced.value < lower.unplaced.value) :=
          hbounds
        rw [if_neg hleaf, if_neg hbounds]
        rfl
  | group range members =>
      rw [Term.leaves, flatten]
      exact flattenAll_leaves members

/-- The leaves of terms describe what the terms describe. -/
theorem flattenAll_leaves (terms : List (Term Name)) :
    Alike (flattenAll options resolve (Term.leavesAll terms))
      (flattenAll options resolve terms) := by
  match terms with
  | [] => rfl
  | term :: rest =>
      rw [Term.leavesAll, flattenAll_append, flattenAll_cons]
      exact (flatten_leaves term).bind fun operands => (flattenAll_leaves rest).map (operands ++ ·)

/-- Fields with the leaves of their types are described like the fields. -/
theorem flattenFields_leaves (fields : TermFields Name) :
    Alike (flattenFields options resolve (Term.leafFields fields))
      (flattenFields options resolve fields) := by
  match fields with
  | [] => rfl
  | (label, type) :: rest =>
      rw [Term.leafFields, flattenFields_cons, flattenFields_cons, flatten]
      have htype : Alike
          ((flattenAll options resolve type.leaves).bind (single (.empty 0)))
          ((flatten options resolve type).bind (single type.range)) :=
        (flatten_leaves type).bind (alike_single _ _)
      exact htype.bind fun operand => (flattenFields_leaves rest).map _
end

/-- The stack of groups splices operands as recursion does: a group contributes what its members
contribute, one after another, any other term contributes one operand, and the first error from left
to right is the result. Trees that have the same leaves, so that they differ only in how operands
are grouped, describe the same shape, or are rejected for the same reason at places that may
differ. -/
theorem ofTree_grouping (options : Options) (resolve : Name → Operand Name) :
    (∀ tree : Tree Name,
      ofTree options resolve tree = (flattenAll options resolve tree.terms).map Shape.mk) ∧
    ∀ first second : Tree Name, first.leaves = second.leaves →
      (ofTree options resolve first).mapError CheckError.unplaced =
        (ofTree options resolve second).mapError CheckError.unplaced := by
  refine ⟨ofTree_eq, fun first second h => ?_⟩
  have hleaves : Alike (flattenAll options resolve first.terms)
      (flattenAll options resolve second.terms) :=
    calc (flattenAll options resolve first.terms).mapError CheckError.unplaced
        = (flattenAll options resolve first.leaves).mapError CheckError.unplaced :=
          (flattenAll_leaves first.terms).symm
      _ = (flattenAll options resolve second.leaves).mapError CheckError.unplaced := by rw [h]
      _ = (flattenAll options resolve second.terms).mapError CheckError.unplaced :=
          flattenAll_leaves second.terms
  rw [ofTree_eq, ofTree_eq]
  exact hleaves.map Shape.mk

/-- The tree of `(a, ()), Record(x=((int8)))`. An empty group has leaves, although no text holds
one. -/
def nested : Tree String :=
  ⟨[.group ⟨0, 7⟩ [.name ⟨1, 2⟩ "a", .group ⟨4, 6⟩ []],
    .record ⟨9, 27⟩ [(⟨⟨16, 17⟩, "x"⟩,
      .group ⟨18, 26⟩ [.group ⟨19, 25⟩ [.name ⟨20, 24⟩ "int8"]])]]⟩

/-- The tree of `a, Record(x=int8)`. -/
def flat : Tree String :=
  ⟨[.name ⟨0, 1⟩ "a", .record ⟨3, 17⟩ [(⟨⟨10, 11⟩, "x"⟩, .name ⟨12, 16⟩ "int8")]]⟩

/-- Groups around operands, an empty group, and groups around the type of a field. -/
theorem ofTree_grouping_nested :
    nested.leaves = flat.leaves ∧
      (ofTree {} Operand.ofName nested).mapError CheckError.unplaced =
        (ofTree {} Operand.ofName flat).mapError CheckError.unplaced :=
  ⟨rfl, (ofTree_grouping {} Operand.ofName).2 nested flat rfl⟩

end Shape

end ArrayShape
