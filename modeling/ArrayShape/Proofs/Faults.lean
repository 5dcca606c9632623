import ArrayShape.Proofs.Checks
import ArrayShape.Proofs.Regrouping
import ArrayShape.Tree.Parts

/-!
# The term at fault

Terms that describe nothing have a term inside them that is at fault (`Faulty`): a range whose
bounds are not in order, a record with a repeated label, or a group that is the type of a field and
does not hold a single operand. The error is the one for that term, wherever the term lies
(`exists_faulty_of_flattenAll`).
-/

namespace ArrayShape.Shape

variable {Name : Type} [DecidableEq Name] {options : Options} {resolve : Name → Operand Name}

/-- The term is at fault for an error, whatever is around it. -/
inductive Faulty (options : Options) (resolve : Name → Operand Name) :
    Term Name → CheckError Name → Prop where
  | invertedBounds (range lower upper) :
      options.validateBounds = true → upper.value < lower.value →
      Faulty options resolve (.var range lower upper)
        (.invertedBounds range lower.value upper.value)
  | repeatedLabels (range fields) :
      options.allowRepeats = false → repeats fields ≠ [] →
      Faulty options resolve (.record range fields) (.repeatedLabels range (repeats fields))
  | notOneOperand (range members operands) :
      flattenAll options resolve members = .ok operands → operands.length ≠ 1 →
      Faulty options resolve (.group range members) (.notOneOperand range operands.length)

section Results

variable {ε α β : Type} {result : Except ε α} {error : ε}

/-- Two readings one after another fail where the first fails or else the second. -/
theorem bind_eq_error {f : α → Except ε β} (h : result.bind f = .error error) :
    result = .error error ∨ ∃ value, result = .ok value ∧ f value = .error error := by
  cases result with
  | error found =>
      cases h
      exact .inl rfl
  | ok value => exact .inr ⟨value, rfl, h⟩

/-- A reading whose value is changed fails where the reading does. -/
theorem map_eq_error {f : α → β} (h : result.map f = .error error) : result = .error error := by
  cases result with
  | error found =>
      cases h
      rfl
  | ok value => cases h

end Results

/-- Repeated labels are labels. -/
theorem repeatsAfter_sublist (seen : List Name) (labels : List (Spanned Name)) :
    (repeatsAfter seen labels).Sublist labels := by
  induction labels generalizing seen with
  | nil => exact .slnil
  | cons label rest ih =>
      rw [repeatsAfter]
      split
      · exact (ih _).cons_cons label
      · exact (ih _).cons label

omit [DecidableEq Name] in
/-- A list that does not hold a single operand is rejected for their number. -/
theorem single_eq_error {range : ByteRange} {operands : List (Operand Name)}
    {error : CheckError Name} (h : single range operands = .error error) :
    operands.length ≠ 1 ∧ error = .notOneOperand range operands.length := by
  cases operands with
  | nil =>
      cases h
      exact ⟨by simp, rfl⟩
  | cons operand rest =>
      cases rest with
      | nil => cases h
      | cons other others =>
          cases h
          exact ⟨by simp, rfl⟩

/-- Only groups describe no operand or several. -/
theorem exists_group_of_flatten {term : Term Name} {operands : List (Operand Name)}
    (h : flatten options resolve term = .ok operands) (hlength : operands.length ≠ 1) :
    ∃ range members, term = .group range members ∧
      flattenAll options resolve members = .ok operands := by
  cases term with
  | group range members =>
      rw [flatten] at h
      exact ⟨range, members, rfl, h⟩
  | record range fields =>
      obtain ⟨-, described, -, rfl⟩ := flatten_record_eq_ok_iff.1 h
      exact absurd rfl hlength
  | var range lower upper =>
      obtain ⟨-, rfl⟩ := flatten_var_eq_ok_iff.1 h
      exact absurd rfl hlength
  | name | number | enum =>
      rw [flatten, Except.ok.injEq] at h
      subst h
      exact absurd rfl hlength

mutual
/-- The error of a term is that of a term in it. -/
theorem exists_faulty_of_flatten (term : Term Name) {error : CheckError Name}
    (h : flatten options resolve term = .error error) :
    ∃ part ∈ term.parts, Faulty options resolve part error := by
  cases term with
  | name | number | enum => simp [flatten] at h
  | record range fields =>
      rw [flatten] at h
      split at h
      · next label others hallow hrepeats =>
          cases h
          rw [← hrepeats]
          exact ⟨_, List.mem_cons_self, .repeatedLabels range fields hallow (by simp [hrepeats])⟩
      · obtain ⟨part, hpart, hfaulty⟩ := exists_faulty_of_flattenFields fields (map_eq_error h)
        exact ⟨part, List.mem_cons_of_mem _ hpart, hfaulty⟩
  | var range lower upper =>
      rw [flatten] at h
      split at h
      · next hbounds =>
          cases h
          exact ⟨_, List.mem_cons_self, .invertedBounds range lower upper hbounds.1 hbounds.2⟩
      · cases h
  | group range members =>
      rw [flatten] at h
      obtain ⟨part, hpart, hfaulty⟩ := exists_faulty_of_flattenAll members h
      exact ⟨part, List.mem_cons_of_mem _ hpart, hfaulty⟩

/-- The error of terms is that of a term in them. -/
theorem exists_faulty_of_flattenAll (terms : List (Term Name)) {error : CheckError Name}
    (h : flattenAll options resolve terms = .error error) :
    ∃ part ∈ Term.membersParts terms, Faulty options resolve part error := by
  match terms with
  | [] => simp [flattenAll] at h
  | term :: rest =>
      rw [flattenAll_cons] at h
      rw [Term.membersParts]
      rcases bind_eq_error h with hterm | ⟨operands, -, hrest⟩
      · obtain ⟨part, hpart, hfaulty⟩ := exists_faulty_of_flatten term hterm
        exact ⟨part, List.mem_append_left _ hpart, hfaulty⟩
      · obtain ⟨part, hpart, hfaulty⟩ := exists_faulty_of_flattenAll rest (map_eq_error hrest)
        exact ⟨part, List.mem_append_right _ hpart, hfaulty⟩

/-- The error of fields is that of a term in their types. -/
theorem exists_faulty_of_flattenFields (fields : TermFields Name) {error : CheckError Name}
    (h : flattenFields options resolve fields = .error error) :
    ∃ part ∈ Term.fieldsParts fields, Faulty options resolve part error := by
  match fields with
  | [] => simp [flattenFields] at h
  | (label, type) :: rest =>
      rw [flattenFields_cons] at h
      rw [Term.fieldsParts]
      rcases bind_eq_error h with htype | ⟨operand, -, hrest⟩
      · rcases bind_eq_error htype with hinner | ⟨operands, hoperands, hsingle⟩
        · obtain ⟨part, hpart, hfaulty⟩ := exists_faulty_of_flatten type hinner
          exact ⟨part, List.mem_append_left _ hpart, hfaulty⟩
        · obtain ⟨hlength, rfl⟩ := single_eq_error hsingle
          obtain ⟨range, members, rfl, hmembers⟩ := exists_group_of_flatten hoperands hlength
          exact ⟨_, List.mem_append_left _ List.mem_cons_self,
            .notOneOperand range members operands hmembers hlength⟩
      · obtain ⟨part, hpart, hfaulty⟩ := exists_faulty_of_flattenFields rest (map_eq_error hrest)
        exact ⟨part, List.mem_append_right _ hpart, hfaulty⟩
end

end ArrayShape.Shape
