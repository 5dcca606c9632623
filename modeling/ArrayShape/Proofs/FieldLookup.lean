import ArrayShape.Operand.Field
import ArrayShape.Proofs.EditDistance

/-!
# Fields that are found and labels that are suggested

A look-up gives the type of the first field with the label. Where no field has it, the label that
needs the fewest edits is suggested, and of several such labels the first, if two edits of a
character are enough (`field_or_nearest`). The distance counts edits, so that what is left is which
of several labels at the least distance is taken (`minOn?_eq_some_iff`).
-/

namespace ArrayShape.Operand

open Text (EditedIn LeastEdits)

/-- A label among others that needs the fewest edits of a character from a name, two at most, and
is the first to need so few. -/
def NearestLabel (name : String) (labels : List String) (label : String) : Prop :=
  ∃ before after count, labels = before ++ label :: after ∧
    LeastEdits count name.toList label.toList ∧ count ≤ 2 ∧
      (∀ earlier ∈ before, ∀ other, EditedIn other name.toList earlier.toList → count < other) ∧
        ∀ later ∈ after, ∀ other, EditedIn other name.toList later.toList → count ≤ other

/-- What a failed look-up of a name among labels says. -/
structure NotFoundAmong (labels : List String) (name : String) (failure : FieldNotFound) :
    Prop where
  /-- No label is the name. -/
  absent : name ∉ labels
  /-- The failure tells the name. -/
  name_eq : failure.name = name
  /-- A label is suggested exactly when two edits of a character make one of the name. -/
  suggests : (∃ label, failure.suggestion = some label) ↔
    ∃ label ∈ labels, ∃ count, count ≤ 2 ∧ EditedIn count name.toList label.toList
  /-- The label that is suggested is the nearest. -/
  nearest : ∀ label, failure.suggestion = some label ↔ NearestLabel name labels label

/-- The nearest label is the first at the least distance, if that is not too great. -/
theorem nearestLabel_iff {name : String} {labels : List String} {label : String} :
    NearestLabel name labels label ↔ ∃ before after, labels = before ++ label :: after ∧
      nameDistance name label ≤ 2 ∧
        (∀ earlier ∈ before, nameDistance name label < nameDistance name earlier) ∧
          ∀ later ∈ after, nameDistance name label ≤ nameDistance name later := by
  have hle (count : Nat) (other : String) : count ≤ nameDistance name other ↔
      ∀ edits, EditedIn edits name.toList other.toList → count ≤ edits :=
    Text.le_editDistance_iff
  constructor
  · intro h
    obtain ⟨before, after, count, hlabels, hcount, hnear, hbefore, hafter⟩ := h
    obtain rfl : nameDistance name label = count := Text.editDistance_eq_iff.2 hcount
    exact ⟨before, after, hlabels, hnear,
      fun earlier hearlier => (hle _ earlier).2 (hbefore earlier hearlier),
      fun later hlater => (hle _ later).2 (hafter later hlater)⟩
  · intro h
    obtain ⟨before, after, hlabels, hnear, hbefore, hafter⟩ := h
    exact ⟨before, after, _, hlabels, Text.editDistance_eq_iff.1 rfl, hnear,
      fun earlier hearlier => (hle _ earlier).1 (hbefore earlier hearlier),
      fun later hlater => (hle _ later).1 (hafter later hlater)⟩

/-! ## The first of the least -/

section Least

variable {α : Type} {f : α → Nat} {elements : List α} {least : α}

/-- The element that is taken is the first of those with the least value. -/
theorem minOn?_eq_some_iff :
    elements.minOn? f = some least ↔ ∃ before after, elements = before ++ least :: after ∧
      (∀ earlier ∈ before, f least < f earlier) ∧ ∀ later ∈ after, f least ≤ f later := by
  induction elements generalizing least with
  | nil => simp
  | cons first rest ih =>
      rw [List.minOn?_cons, Option.some.injEq]
      constructor
      · intro h
        cases hrest : rest.minOn? f with
        | none =>
            obtain rfl : rest = [] := by
              cases rest with
              | nil => rfl
              | cons next others => cases hrest
            exact ⟨[], [], congrArg ([·]) h, nofun, nofun⟩
        | some other =>
            obtain ⟨before, after, rfl, hbefore, hafter⟩ := ih.1 hrest
            rw [hrest, Option.elim_some, minOn] at h
            split at h
            · next hle =>
                subst h
                refine ⟨[], _, rfl, nofun, fun later hlater => Nat.le_trans hle ?_⟩
                rw [List.mem_append, List.mem_cons] at hlater
                rcases hlater with hlater | rfl | hlater
                · exact Nat.le_of_lt (hbefore later hlater)
                · exact Nat.le_refl _
                · exact hafter later hlater
            · next hlt =>
                subst h
                exact ⟨first :: before, after, rfl,
                  List.forall_mem_cons.2 ⟨Nat.lt_of_not_le hlt, hbefore⟩, hafter⟩
      · intro h
        obtain ⟨before, after, hsplit, hbefore, hafter⟩ := h
        cases before with
        | nil =>
            cases hsplit
            cases hrest : rest.minOn? f with
            | none => rfl
            | some other => exact if_pos (hafter other (List.minOn?_mem hrest))
        | cons head before =>
            cases hsplit
            rw [List.forall_mem_cons] at hbefore
            rw [ih.2 ⟨before, after, rfl, hbefore.2, hafter⟩]
            exact if_neg (Nat.not_le_of_lt hbefore.1)

/-- The element that is taken among those with a value up to a limit is the first of those with the
least value, if that is within the limit. -/
theorem minOn?_filter_eq_some_iff {limit : Nat} :
    (elements.filter (f · ≤ limit)).minOn? f = some least ↔
      ∃ before after, elements = before ++ least :: after ∧ f least ≤ limit ∧
        (∀ earlier ∈ before, f least < f earlier) ∧ ∀ later ∈ after, f least ≤ f later := by
  rw [minOn?_eq_some_iff]
  constructor
  · intro h
    obtain ⟨front, back, hfilter, hfront, hback⟩ := h
    obtain ⟨before, behind, rfl, rfl, hbehind⟩ := List.filter_eq_append_iff.1 hfilter
    obtain ⟨between, after, rfl, hbetween, hnear, rfl⟩ := List.filter_eq_cons_iff.1 hbehind
    simp only [decide_eq_true_eq] at hbetween hnear
    refine ⟨before ++ between, after, by simp, hnear, fun earlier hearlier => ?_,
      fun later hlater => ?_⟩
    -- An element that is not near is no rival of one that is.
    · by_cases hnearer : f earlier ≤ limit
      · rcases List.mem_append.1 hearlier with hmem | hmem
        · exact hfront earlier (List.mem_filter.2 ⟨hmem, decide_eq_true hnearer⟩)
        · exact absurd hnearer (hbetween earlier hmem)
      · omega
    · by_cases hnearer : f later ≤ limit
      · exact hback later (List.mem_filter.2 ⟨hlater, decide_eq_true hnearer⟩)
      · omega
  · intro h
    obtain ⟨before, after, rfl, hnear, hbefore, hafter⟩ := h
    refine ⟨before.filter (f · ≤ limit), after.filter (f · ≤ limit), ?_, ?_, ?_⟩
    · simp [hnear]
    · exact fun earlier hearlier => hbefore earlier (List.mem_filter.1 hearlier).1
    · exact fun later hlater => hafter later (List.mem_filter.1 hlater).1

end Least

/-! ## Looking up -/

/-- The label that is suggested is the nearest. -/
theorem suggest?_eq_some_iff {name : String} {labels : List String} {label : String} :
    suggest? name labels = some label ↔ NearestLabel name labels label := by
  rw [nearestLabel_iff, suggest?, minOn?_filter_eq_some_iff]
  rfl

/-- A label is suggested exactly when two edits of a character make one of the name. -/
theorem exists_suggest?_iff {name : String} {labels : List String} :
    (∃ label, suggest? name labels = some label) ↔
      ∃ label ∈ labels, ∃ count, count ≤ 2 ∧ EditedIn count name.toList label.toList := by
  have hnear (label : String) : nameDistance name label ≤ maxSuggestionDistance ↔
      ∃ count, count ≤ 2 ∧ EditedIn count name.toList label.toList :=
    Text.editDistance_le_iff
  rw [← Option.isSome_iff_exists, suggest?, List.isSome_minOn?_iff, ne_eq,
    List.filter_eq_nil_iff]
  simp [hnear]

/-- A look-up gives the type of a field exactly when that is the first field with the label. -/
theorem field_eq_ok_iff {fields : Fields String} {name : String} {type : Operand String} :
    field fields name = .ok type ↔ ∃ before after, fields = before ++ (name, type) :: after ∧
      ∀ earlier ∈ before, earlier.1 ≠ name := by
  have hlookup : fields.lookup name = some type ↔
      ∃ before after, fields = before ++ (name, type) :: after ∧
        ∀ earlier ∈ before, earlier.1 ≠ name := by
    rw [List.lookup_eq_some_iff]
    simp [ne_comm]
  rw [← hlookup, field]
  cases fields.lookup name <;> simp

/-- A look-up gives a type, or fails with the suggestion among the labels. -/
theorem field_eq_error_iff {fields : Fields String} {name : String} {failure : FieldNotFound} :
    field fields name = .error failure ↔
      name ∉ fields.map Prod.fst ∧ failure = ⟨name, suggest? name (fields.map Prod.fst)⟩ := by
  have hlookup : fields.lookup name = none ↔ name ∉ fields.map Prod.fst := by
    rw [List.lookup_eq_none_iff, List.mem_map, not_exists]
    simp only [bne_iff_ne, not_and, ne_comm, ne_eq]
  rw [← hlookup, field]
  cases fields.lookup name <;> simp [eq_comm]

/-- A look-up gives the type of the first field with the label, and there is one exactly when some
field has the label. Else it fails with the label and with a label of the record that is reached by
the fewest edits of a character, the earliest of these, unless all of them need more than two. -/
theorem field_or_nearest (fields : Fields String) (name : String) :
    (∀ type, field fields name = .ok type ↔
      ∃ before after, fields = before ++ (name, type) :: after ∧
        ∀ earlier ∈ before, earlier.1 ≠ name) ∧
    ((∃ type, field fields name = .ok type) ↔ name ∈ fields.map Prod.fst) ∧
    ∀ failure, field fields name = .error failure ↔
      NotFoundAmong (fields.map Prod.fst) name failure := by
  refine ⟨fun type => field_eq_ok_iff, ?_, fun failure => ?_⟩
  · cases hfield : field fields name with
    | ok type =>
        refine ⟨fun _ => Classical.byContradiction fun habsent => ?_, fun _ => ⟨type, rfl⟩⟩
        rw [field_eq_error_iff.2 ⟨habsent, rfl⟩] at hfield
        cases hfield
    | error failure =>
        have habsent := (field_eq_error_iff.1 hfield).1
        simpa using habsent
  · rw [field_eq_error_iff]
    constructor
    · intro h
      obtain ⟨habsent, rfl⟩ := h
      exact ⟨habsent, rfl, exists_suggest?_iff, fun label => suggest?_eq_some_iff⟩
    · intro h
      refine ⟨h.absent, ?_⟩
      have hsuggestion : failure.suggestion = suggest? name (fields.map Prod.fst) := by
        refine Option.ext fun label => ?_
        rw [h.nearest, suggest?_eq_some_iff]
      rw [← hsuggestion, ← h.name_eq]

/-- Characters count and not bytes; of two labels that are equally near, the first is suggested. -/
example : suggest? "größe" ["grobe", "größen", "Größe"] = some "größen" := by decide

end ArrayShape.Operand
