import ArrayShape.Proofs.FirstFault
import ArrayShape.Shape.CheckError
import Mathlib.Data.List.Induction

/-!
# The report of repeated labels

A record is rejected when a label is repeated, with every occurrence of a label behind the first.
The report marks each of these occurrences, and its note names a repeated label once, in the order
of the second occurrences (`checkLabels_reports`). An occurrence is the first, the second or a later
one by the labels before it. Each of the lists is therefore found by one test at every place
(`Spanned.selected`), and what a further label adds to it is decided by that test alone
(`selected_concat`).
-/

namespace ArrayShape

variable {Name : Type} [DecidableEq Name]

namespace Spanned

/-! ## Occurrences -/

/-- The values at the places where a test of the values before and the value itself holds. -/
def selected (test : List Name → Name → Bool) (labels : List (Spanned Name)) :
    List (Spanned Name) :=
  (labels.zipIdx.filter fun (label, position) =>
    test ((labels.take position).map Spanned.value) label.value).map Prod.fst

/-- The values that occur for the second time. -/
def secondOccurrences (labels : List (Spanned Name)) : List (Spanned Name) :=
  selected (fun before value => before.count value = 1) labels

/-- The values that stand among those before them pass that test. -/
theorem repeated_eq_selected (labels : List (Spanned Name)) :
    repeated labels = selected (fun before value => value ∈ before) labels := rfl

omit [DecidableEq Name] in
/-- A further value is selected if it passes the test, and changes nothing else. -/
theorem selected_concat (test : List Name → Name → Bool) (labels : List (Spanned Name))
    (label : Spanned Name) :
    selected test (labels ++ [label]) = selected test labels ++
      if test (labels.map Spanned.value) label.value then [label] else [] := by
  have hsame : ∀ entry ∈ labels.zipIdx,
      test (((labels ++ [label]).take entry.2).map Spanned.value) entry.1.value =
        test ((labels.take entry.2).map Spanned.value) entry.1.value := by
    intro entry hentry
    have hlt := List.snd_lt_of_mem_zipIdx hentry
    rw [List.take_append_of_le_length (by omega)]
  rw [selected, selected, List.zipIdx_append, List.filter_append, List.map_append,
    List.filter_congr hsame]
  congr 1
  simp only [List.zipIdx_cons, List.zipIdx_nil, List.filter_cons, List.filter_nil, Nat.zero_add,
    List.take_left]
  split <;> rfl

/-- A further value is repeated if it stands before. -/
theorem repeated_concat (labels : List (Spanned Name)) (label : Spanned Name) :
    repeated (labels ++ [label]) =
      repeated labels ++ if label.value ∈ labels.map Spanned.value then [label] else [] := by
  simp only [repeated_eq_selected, selected_concat, decide_eq_true_eq]

/-- A further value occurs for the second time if it stands once before. -/
theorem secondOccurrences_concat (labels : List (Spanned Name)) (label : Spanned Name) :
    secondOccurrences (labels ++ [label]) = secondOccurrences labels ++
      if (labels.map Spanned.value).count label.value = 1 then [label] else [] := by
  simp only [secondOccurrences, selected_concat, decide_eq_true_eq]

/-- Every occurrence of a value is repeated apart from one. -/
theorem count_repeated (labels : List (Spanned Name)) (name : Name) :
    ((repeated labels).map Spanned.value).count name =
      (labels.map Spanned.value).count name - 1 := by
  induction labels using List.reverseRecOn with
  | nil => rfl
  | append_singleton before label ih =>
      have hmem := List.count_pos_iff (l := before.map Spanned.value) (a := label.value)
      rw [repeated_concat, List.map_append, List.map_append, List.count_append, List.count_append,
        ih]
      by_cases hname : label.value = name
      · subst hname
        by_cases hbefore : label.value ∈ before.map Spanned.value
        · have hpos := hmem.2 hbefore
          rw [if_pos hbefore, List.map_singleton, List.count_singleton_self]
          omega
        · have hzero := List.count_eq_zero.2 hbefore
          rw [if_neg hbefore, List.map_singleton, List.count_singleton_self, hzero]
          rfl
      · split <;> simp [hname]

/-- A value is repeated exactly when it stands at two places. -/
theorem mem_repeated_iff (labels : List (Spanned Name)) (name : Name) :
    name ∈ (repeated labels).map Spanned.value ↔ 2 ≤ (labels.map Spanned.value).count name := by
  rw [← List.count_pos_iff, count_repeated]
  omega

/-- Behind other values, a value is erased if it is one of them. -/
theorem eraseDups_concat (values : List Name) (value : Name) :
    (values ++ [value]).eraseDups = values.eraseDups ++ if value ∈ values then [] else [value] := by
  rw [List.eraseDups_append]
  by_cases h : value ∈ values <;> simp [List.removeAll, h, List.eraseDups_cons]

/-- As many values are repeated as there are more values than different ones. -/
theorem length_repeated (labels : List (Spanned Name)) :
    (repeated labels).length + (labels.map Spanned.value).eraseDups.length = labels.length := by
  induction labels using List.reverseRecOn with
  | nil => rfl
  | append_singleton before label ih =>
      rw [repeated_concat, List.map_append, List.map_singleton, eraseDups_concat,
        List.length_append, List.length_append, List.length_append, ← ih]
      split
      · simp only [List.length_singleton, List.length_nil]
        omega
      · simp only [List.length_singleton, List.length_nil]
        omega

/-- The values that are repeated are different where they occur for the second time. -/
theorem eraseDups_repeated (labels : List (Spanned Name)) :
    ((repeated labels).map Spanned.value).eraseDups =
      (secondOccurrences labels).map Spanned.value := by
  induction labels using List.reverseRecOn with
  | nil => rfl
  | append_singleton before label ih =>
      have hmem := List.count_pos_iff (l := before.map Spanned.value) (a := label.value)
      have hrepeated := mem_repeated_iff before label.value
      rw [repeated_concat, secondOccurrences_concat, List.map_append]
      by_cases hbefore : label.value ∈ before.map Spanned.value
      · have hpos := hmem.2 hbefore
        rw [if_pos hbefore, List.map_singleton, List.map_append, eraseDups_concat, ih]
        -- A value that stands before is named unless it stands there twice.
        by_cases honce : (before.map Spanned.value).count label.value = 1
        · have hnew : label.value ∉ (repeated before).map Spanned.value := by
            rw [hrepeated]
            omega
          rw [if_neg hnew, if_pos honce, List.map_singleton]
        · rw [if_pos (hrepeated.2 (by omega)), if_neg honce, List.map_nil]
      · have hzero := List.count_eq_zero.2 hbefore
        rw [if_neg hbefore, if_neg (by omega), List.map_nil, List.append_nil, List.append_nil, ih]

/-- No value occurs twice for the second time. -/
theorem nodup_secondOccurrences (labels : List (Spanned Name)) :
    ((secondOccurrences labels).map Spanned.value).Nodup := by
  induction labels using List.reverseRecOn with
  | nil => exact .nil
  | append_singleton before label ih =>
      have hsecond := mem_repeated_iff before label.value
      rw [← List.mem_eraseDups, eraseDups_repeated] at hsecond
      rw [secondOccurrences_concat, List.map_append, List.nodup_append]
      refine ⟨ih, by split <;> simp, fun name hname other hother => ?_⟩
      split at hother
      · next honce =>
          rw [List.map_singleton, List.mem_singleton] at hother
          subst hother
          intro heq
          subst heq
          have htwice := hsecond.1 hname
          omega
      · cases hother

end Spanned

namespace Shape

/-! ## The check and its report -/

/-- A record is described by its fields behind the check of its labels. -/
theorem operandOf_record (options : Options) (resolve : Name → Operand Name) (range : ByteRange)
    (fields : TermFields Name) :
    operandOf options resolve (.record range fields) =
      (if options.allowRepeats then .ok () else checkLabels range fields).bind fun _ =>
        (fieldsOf options resolve fields).map .record := by
  rw [operandOf]
  cases options.allowRepeats with
  | true => rfl
  | false => cases checkLabels range fields <;> rfl

/-- What the report of the repeated labels of a record says. -/
structure RepeatsReported (range : ByteRange) (labels : List (Spanned String))
    (error : CheckError String) : Prop where
  /-- The labels that stand among the labels before them are listed, in order. -/
  listed : error = .repeatedLabels range (Spanned.repeated labels)
  /-- A label is listed once less than it occurs. -/
  count_eq (name : String) : ((Spanned.repeated labels).map Spanned.value).count name =
    (labels.map Spanned.value).count name - 1
  /-- The listed labels and the different labels are as many as the fields. -/
  length_eq : (Spanned.repeated labels).length + (labels.map Spanned.value).eraseDups.length =
    labels.length
  /-- Every listed label is marked as a cause, in order, and then the record is marked. -/
  marks : error.diagnostic.labels =
    ((Spanned.repeated labels).map fun label => .primary label.range "duplicate field") ++
      [.secondary range "the record type"]
  /-- The note names the labels that occur for the second time, in order. -/
  note : error.diagnostic.notes = ["duplicate fields " ++ ", ".intercalate
    ((Spanned.secondOccurrences labels).map fun label => "`" ++ label.value ++ "`")]
  /-- No label is named twice. -/
  nodup : ((Spanned.secondOccurrences labels).map Spanned.value).Nodup
  /-- The labels that are named are those that occur more than once. -/
  mem_iff (name : String) : name ∈ (Spanned.secondOccurrences labels).map Spanned.value ↔
    2 ≤ (labels.map Spanned.value).count name

/-- The error for labels of which some are repeated is reported as that. -/
theorem repeatsReported (range : ByteRange) (labels : List (Spanned String)) :
    RepeatsReported range labels (.repeatedLabels range (Spanned.repeated labels)) where
  listed := rfl
  count_eq := Spanned.count_repeated labels
  length_eq := Spanned.length_repeated labels
  marks := rfl
  note := by
    show ["duplicate fields " ++ ", ".intercalate ((((Spanned.repeated labels).map
      Spanned.value).eraseDups).map fun label => "`" ++ label ++ "`")] = _
    rw [Spanned.eraseDups_repeated, List.map_map]
    rfl
  nodup := Spanned.nodup_secondOccurrences labels
  mem_iff := fun name => by
    rw [← Spanned.eraseDups_repeated, List.mem_eraseDups, Spanned.mem_repeated_iff]

/-- The check passes exactly when the labels of the fields are distinct. Else it fails with every
label that an earlier field has too, and the report marks each of these and names each label once.
A record is checked before its fields are described, unless labels may be repeated. -/
theorem checkLabels_reports (range : ByteRange) (fields : TermFields String) :
    (checkLabels range fields = .ok () ↔ (fields.map (·.1.value)).Nodup) ∧
    (∀ error, checkLabels range fields = .error error ↔
      ¬ (fields.map (·.1.value)).Nodup ∧ RepeatsReported range (fields.map Prod.fst) error) ∧
    ∀ options resolve, operandOf options resolve (.record range fields) =
      (if options.allowRepeats then .ok () else checkLabels range fields).bind fun _ =>
        (fieldsOf options resolve fields).map .record := by
  refine ⟨?_, fun error => ?_, fun options resolve => operandOf_record options resolve range fields⟩
  · rw [← repeats_eq_nil_iff, checkLabels]
    cases repeats fields <;> simp
  · have hreported := repeatsReported range (fields.map Prod.fst)
    rw [← repeats_eq_nil_iff, checkLabels]
    rw [← repeats_eq_repeated] at hreported
    cases hrepeats : repeats fields with
    | nil => simp
    | cons label others =>
        rw [hrepeats] at hreported
        constructor
        · intro h
          cases h
          exact ⟨List.cons_ne_nil _ _, hreported⟩
        · intro h
          rw [h.2.listed, ← repeats_eq_repeated, hrepeats]

/-- Of the fields `a`, `b`, `b`, `a` and `a`, the last three are repeated, and `b` is repeated
first. -/
example : (Spanned.secondOccurrences [⟨⟨0, 1⟩, "a"⟩, ⟨⟨1, 2⟩, "b"⟩, ⟨⟨2, 3⟩, "b"⟩, ⟨⟨3, 4⟩, "a"⟩,
    ⟨⟨4, 5⟩, "a"⟩]).map Spanned.value = ["b", "a"] := by
  decide

end Shape

end ArrayShape
