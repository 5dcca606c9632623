import ArrayShape.Shape.OfTree

/-!
# Splicing by recursion

`Shape.splice` keeps the groups that it has entered on a stack. `flatten` says by plain recursion
what a term contributes to a list of operands: a group contributes what its members contribute,
one after another, and any other term contributes a single operand. A field has room for exactly
one contribution. `splice_eq` says that the stack computes the recursion, for every stack and with
the same first error.
-/

namespace ArrayShape.Shape

variable {Name : Type} [DecidableEq Name]

/-- The single operand of a list, in a place that has room for one. -/
def single (range : ByteRange) : List (Operand Name) → Except (CheckError Name) (Operand Name)
  | [operand] => .ok operand
  | operands => .error (.notOneOperand range operands.length)

mutual
/-- The operands that a term contributes to the list it stands in. -/
def flatten (options : Options) (resolve : Name → Operand Name) :
    Term Name → Except (CheckError Name) (List (Operand Name))
  | .name _ name => .ok [resolve name]
  | .number _ value => .ok [.integer value]
  | .record range fields =>
    match options.allowRepeats, repeats fields with
    | false, label :: others => .error (.repeatedLabels range (label :: others))
    | _, _ => (flattenFields options resolve fields).map fun fields => [.record fields]
  | .enum _ values => .ok [.enum (values.map (·.value))]
  | .var range lower upper =>
    if options.validateBounds ∧ upper.value < lower.value then
      .error (.invertedBounds range lower.value upper.value)
    else .ok [.var lower.value upper.value]
  | .group _ members => flattenAll options resolve members

/-- The operands that terms contribute, one term after another. -/
def flattenAll (options : Options) (resolve : Name → Operand Name) :
    List (Term Name) → Except (CheckError Name) (List (Operand Name))
  | [] => .ok []
  | term :: rest =>
    match flatten options resolve term with
    | .error error => .error error
    | .ok operands => (flattenAll options resolve rest).map (operands ++ ·)

/-- The fields that fields describe, each with the single operand that its type contributes. -/
def flattenFields (options : Options) (resolve : Name → Operand Name) :
    TermFields Name → Except (CheckError Name) (Fields Name)
  | [] => .ok []
  | (label, type) :: rest =>
    match (flatten options resolve type).bind (single type.range) with
    | .error error => .error error
    | .ok operand => (flattenFields options resolve rest).map ((label.value, operand) :: ·)
end

/-- The operands that a stack of lists contributes, the innermost list first. -/
def flattenStack (options : Options) (resolve : Name → Operand Name) :
    List (List (Term Name)) → Except (CheckError Name) (List (Operand Name))
  | [] => .ok []
  | terms :: pending =>
    match flattenAll options resolve terms with
    | .error error => .error error
    | .ok operands => (flattenStack options resolve pending).map (operands ++ ·)

variable {options : Options} {resolve : Name → Operand Name}

/-- A list that is not yet entered contributes like its first term and its other terms. -/
theorem flattenStack_cons (term : Term Name) (rest : List (Term Name))
    (pending : List (List (Term Name))) :
    flattenStack options resolve ((term :: rest) :: pending) =
      match flatten options resolve term with
      | .error error => .error error
      | .ok operands => (flattenStack options resolve (rest :: pending)).map (operands ++ ·) := by
  simp only [flattenStack, flattenAll]
  cases flatten options resolve term with
  | error error => rfl
  | ok operands =>
      cases flattenAll options resolve rest with
      | error error => rfl
      | ok others =>
          cases flattenStack options resolve pending with
          | error error => rfl
          | ok last => simp [Except.map]

/-- A list that has ended contributes nothing more. -/
theorem flattenStack_nil (pending : List (List (Term Name))) :
    flattenStack options resolve ([] :: pending) = flattenStack options resolve pending := by
  simp only [flattenStack, flattenAll]
  cases flattenStack options resolve pending <;> simp [Except.map]

/-- Entering a group does not change what a stack contributes. -/
theorem flattenStack_group (range : ByteRange) (members rest : List (Term Name))
    (pending : List (List (Term Name))) :
    flattenStack options resolve ((.group range members :: rest) :: pending) =
      flattenStack options resolve (members :: rest :: pending) := by
  rw [flattenStack_cons, flatten]
  rfl

/-- A term that is no group is described by one operand, which joins those that are done. -/
theorem splice_cons {term : Term Name} (h : ∀ range members, term ≠ .group range members)
    (done : List (Operand Name)) (rest : List (Term Name)) (pending : List (List (Term Name))) :
    splice options resolve done ((term :: rest) :: pending) =
      match operandOf options resolve term with
      | .error error => .error error
      | .ok operand => splice options resolve (operand :: done) (rest :: pending) := by
  rw [splice.eq_def]
  cases term with
  | group range members => exact absurd rfl (h range members)
  | _ => cases hoperand : operandOf options resolve _ <;> simp only [hoperand]

mutual
/-- The stack computes what its lists contribute, behind what is done. -/
theorem splice_eq (done : List (Operand Name)) (stack : List (List (Term Name))) :
    splice options resolve done stack =
      (flattenStack options resolve stack).map (done.reverse ++ ·) := by
  match stack with
  | [] => simp [splice, flattenStack, Except.map]
  | [] :: pending => rw [splice, splice_eq done pending, flattenStack_nil]
  | (term :: rest) :: pending =>
      by_cases h : ∃ range members, term = .group range members
      -- Entering a group puts its members in front and takes off the node of the group, so the
      -- terms on the stack are fewer.
      · obtain ⟨range, members, rfl⟩ := h
        rw [splice, splice_eq done (members :: rest :: pending), flattenStack_group]
      · have hgroup : ∀ range members, term ≠ .group range members :=
          fun range members heq => h ⟨range, members, heq⟩
        rw [splice_cons hgroup, flattenStack_cons, flatten_eq_operandOf term hgroup]
        cases operandOf options resolve term with
        | error error => rfl
        | ok operand =>
            simp only [Except.map, splice_eq (operand :: done) (rest :: pending)]
            cases flattenStack options resolve (rest :: pending) <;> simp
termination_by (stack.foldr (fun terms total => sizeOf terms + total) 0, 0)

/-- A term that is no group contributes the operand that describes it. -/
theorem flatten_eq_operandOf (term : Term Name)
    (h : ∀ range members, term ≠ .group range members) :
    flatten options resolve term = (operandOf options resolve term).map ([·]) := by
  cases term with
  | record range fields =>
      rw [flatten, operandOf, checkLabels, fieldsOf_eq fields]
      cases options.allowRepeats <;> cases repeats fields <;>
        cases flattenFields options resolve fields <;> rfl
  | var range lower upper =>
      rw [flatten, operandOf]
      split <;> rfl
  | group range members => exact absurd rfl (h range members)
  | _ =>
      rw [flatten, operandOf]
      rfl
termination_by (sizeOf term, 0)

/-- Where a single operand must stand, a term is described by its only contribution. -/
theorem operandOf_eq (term : Term Name) :
    operandOf options resolve term = (flatten options resolve term).bind (single term.range) := by
  by_cases h : ∃ range members, term = .group range members
  · obtain ⟨range, members, rfl⟩ := h
    rw [operandOf, flatten, splice_eq [] [members]]
    simp only [flattenStack]
    cases flattenAll options resolve members with
    | error error => rfl
    | ok operands =>
        simp only [Except.map, List.append_nil, List.reverse_nil, List.nil_append]
        -- Only the number of operands decides.
        match operands with
        | [] => rfl
        | [operand] => rfl
        | _ :: _ :: _ => rfl
  · rw [flatten_eq_operandOf term fun range members heq => h ⟨range, members, heq⟩]
    cases operandOf options resolve term <;> rfl
termination_by (sizeOf term, 1)

/-- Fields are described by the only contributions of their types. -/
theorem fieldsOf_eq (fields : TermFields Name) :
    fieldsOf options resolve fields = flattenFields options resolve fields := by
  match fields with
  | [] => rw [fieldsOf, flattenFields]
  | (label, type) :: rest =>
      have htype : operandOf options resolve type =
          (flatten options resolve type).bind (single type.range) := operandOf_eq type
      have hrest : fieldsOf options resolve rest = flattenFields options resolve rest :=
        fieldsOf_eq rest
      cases hflatten : (flatten options resolve type).bind (single type.range) with
      | error error => simp [fieldsOf, flattenFields, htype, hflatten]
      | ok operand => simp [fieldsOf, flattenFields, htype, hrest, hflatten]
termination_by (sizeOf fields, 0)
end

/-- The shape of a tree has the operands that its terms contribute. -/
theorem ofTree_eq (tree : Tree Name) :
    ofTree options resolve tree = (flattenAll options resolve tree.terms).map Shape.mk := by
  rw [ofTree, splice_eq]
  simp only [flattenStack]
  cases flattenAll options resolve tree.terms <;> simp [Except.map]

end ArrayShape.Shape
