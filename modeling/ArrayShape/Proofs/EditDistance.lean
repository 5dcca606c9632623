import ArrayShape.Text.EditDistance

/-!
# The distance between words counts edits

An `Edit` inserts, deletes or replaces a single element at any place, and `EditedIn` counts edits
made one after another. The rows of the table give the least number of edits from one list to
another (`editDistance_eq_iff`). The number is reached, since each entry of a row stands for an edit
in front of one of the entries that it is found from (`editedIn_editDistance`). Fewer do not
suffice, since a single edit brings a list nearer to any other by one at most
(`editDistance_le_of_edit`).
-/

namespace ArrayShape.Text

variable {α : Type}

/-! ## Edits -/

/-- One list comes from another by one edit of a single element. -/
inductive Edit : List α → List α → Prop where
  | insert (before : List α) (x : α) (behind : List α) :
      Edit (before ++ behind) (before ++ x :: behind)
  | delete (before : List α) (x : α) (behind : List α) :
      Edit (before ++ x :: behind) (before ++ behind)
  | replace (before : List α) (x y : α) (behind : List α) :
      Edit (before ++ x :: behind) (before ++ y :: behind)

/-- One list comes from another by a number of edits, one after another. -/
inductive EditedIn : Nat → List α → List α → Prop where
  | refl (source : List α) : EditedIn 0 source source
  | step {count : Nat} {source between target : List α} :
      Edit source between → EditedIn count between target → EditedIn (count + 1) source target

/-- The number of edits that are enough to get from one list to another, where fewer are not. -/
def LeastEdits (count : Nat) (source target : List α) : Prop :=
  EditedIn count source target ∧ ∀ other, EditedIn other source target → count ≤ other

/-- An edit of the rest of a list is an edit of the list. -/
theorem Edit.cons (c : α) {source target : List α} (h : Edit source target) :
    Edit (c :: source) (c :: target) := by
  cases h with
  | insert before x behind => exact .insert (c :: before) x behind
  | delete before x behind => exact .delete (c :: before) x behind
  | replace before x y behind => exact .replace (c :: before) x y behind

/-- Edits of the rest of a list are edits of the list. -/
theorem EditedIn.cons (c : α) {count : Nat} {source target : List α}
    (h : EditedIn count source target) : EditedIn count (c :: source) (c :: target) := by
  induction h with
  | refl source => exact .refl (c :: source)
  | step hedit _ ih => exact .step (hedit.cons c) ih

/-- As many insertions as a list has elements build the list. -/
theorem editedIn_length (target : List α) : EditedIn target.length [] target := by
  induction target with
  | nil => exact .refl []
  | cons d rest ih => exact .step (.insert [] d []) (ih.cons d)

/-- The less of two numbers of edits is one of them. -/
theorem EditedIn.min {first second : Nat} {source target : List α}
    (hfirst : EditedIn first source target) (hsecond : EditedIn second source target) :
    EditedIn (min first second) source target := by
  rcases Nat.le_total first second with h | h
  · rwa [Nat.min_eq_left h]
  · rwa [Nat.min_eq_right h]

/-! ## The entries of the table -/

variable [DecidableEq α]

/-- The row against a longer target has one more entry in front. -/
theorem tail_distanceRow (d : α) (target source : List α) :
    (distanceRow (d :: target) source).tail = distanceRow target source := by
  induction source with
  | nil => rfl
  | cons c source ih => rw [distanceRow, extendRow, List.tail_cons, ih, distanceRow]

/-- Against no elements, every element is inserted. -/
theorem editDistance_nil (target : List α) : editDistance [] target = target.length := by
  cases target <;> rfl

/-- The distance to no elements counts the elements. -/
theorem editDistance_nil_right (source : List α) : editDistance source [] = source.length := by
  induction source with
  | nil => rfl
  | cons c source ih =>
      show (distanceRow [] source).headD 0 + 1 = source.length + 1
      rw [← ih, editDistance]

/-- An entry of the table is found from the entries next to it. -/
theorem editDistance_cons_cons (c d : α) (source target : List α) :
    editDistance (c :: source) (d :: target) =
      if c = d then editDistance source target
      else 1 + min (editDistance source (d :: target))
        (min (editDistance source target) (editDistance (c :: source) target)) := by
  simp only [editDistance, distanceRow, extendRow, List.headD_cons, tail_distanceRow]

/-- Equal elements in front do not count. -/
theorem editDistance_cons_self (c : α) (source target : List α) :
    editDistance (c :: source) (c :: target) = editDistance source target := by
  rw [editDistance_cons_cons, if_pos rfl]

/-- Different elements in front cost one edit more than the nearest entry. -/
theorem editDistance_cons_ne {c d : α} (h : c ≠ d) (source target : List α) :
    editDistance (c :: source) (d :: target) =
      1 + min (editDistance source (d :: target))
        (min (editDistance source target) (editDistance (c :: source) target)) := by
  rw [editDistance_cons_cons, if_neg h]

/-- A list is not away from itself. -/
theorem editDistance_self (source : List α) : editDistance source source = 0 := by
  induction source with
  | nil => rfl
  | cons c source ih => rw [editDistance_cons_self, ih]

/-! ## The distance is reached -/

/-- As many edits as the distance says lead from one list to another. -/
theorem editedIn_editDistance (source target : List α) :
    EditedIn (editDistance source target) source target := by
  induction source generalizing target with
  | nil =>
      rw [editDistance_nil]
      exact editedIn_length target
  | cons c source ihSource =>
      -- The three entries next to an entry stand for a deletion, a replacement and an insertion.
      have hdelete (target : List α) :
          EditedIn (editDistance source target + 1) (c :: source) target :=
        .step (.delete [] c source) (ihSource target)
      induction target with
      | nil =>
          have hnil := hdelete []
          rwa [editDistance_nil_right] at hnil ⊢
      | cons d target ihTarget =>
          have hreplace : EditedIn (editDistance source target + 1) (c :: source) (d :: target) :=
            .step (.replace [] c d source) ((ihSource target).cons d)
          have hinsert :
              EditedIn (editDistance (c :: source) target + 1) (c :: source) (d :: target) :=
            .step (.insert [] d (c :: source)) (ihTarget.cons d)
          by_cases hcd : c = d
          · subst hcd
            rw [editDistance_cons_self]
            exact (ihSource target).cons c
          · rw [editDistance_cons_ne hcd, Nat.add_comm, ← Nat.add_min_add_right,
              ← Nat.add_min_add_right]
            exact (hdelete (d :: target)).min (hreplace.min hinsert)

/-! ## The distance is least -/

/-- If an element in front of the target changes the distances from a source by one at most, then
an element in front of the source does. -/
theorem editDistance_cons_left_close {source : List α}
    (hinsert : ∀ (target : List α) (d : α),
      editDistance source (d :: target) ≤ editDistance source target + 1 ∧
        editDistance source target ≤ editDistance source (d :: target) + 1)
    (target : List α) (c : α) :
    editDistance (c :: source) target ≤ editDistance source target + 1 ∧
      editDistance source target ≤ editDistance (c :: source) target + 1 := by
  induction target with
  | nil =>
      simp only [editDistance_nil_right, List.length_cons]
      omega
  | cons d target ih =>
      obtain ⟨hlonger, hshorter⟩ := hinsert target d
      by_cases hcd : c = d
      · subst hcd
        rw [editDistance_cons_self]
        exact ⟨hshorter, hlonger⟩
      · rw [editDistance_cons_ne hcd]
        omega

/-- An element in front of the target changes the distance by one at most. -/
theorem editDistance_cons_right_close (source target : List α) (d : α) :
    editDistance source (d :: target) ≤ editDistance source target + 1 ∧
      editDistance source target ≤ editDistance source (d :: target) + 1 := by
  induction source generalizing target d with
  | nil =>
      simp only [editDistance_nil, List.length_cons]
      omega
  | cons c source ih =>
      have hcons := editDistance_cons_left_close ih
      obtain ⟨hlonger, hshorter⟩ := hcons target c
      by_cases hcd : c = d
      · subst hcd
        rw [editDistance_cons_self]
        exact ⟨hshorter, hlonger⟩
      · obtain ⟨-, hinner⟩ := ih target d
        rw [editDistance_cons_ne hcd]
        omega

/-- If one list is nearer than another by one at most, whatever they are compared with, then so it
is with an element in front of both. -/
theorem editDistance_cons_le {source between : List α}
    (h : ∀ target, editDistance source target ≤ editDistance between target + 1) (c : α)
    (target : List α) :
    editDistance (c :: source) target ≤ editDistance (c :: between) target + 1 := by
  induction target with
  | nil =>
      have hnil := h []
      simp only [editDistance_nil_right, List.length_cons] at hnil ⊢
      omega
  | cons d target ih =>
      have htarget := h target
      have hlonger := h (d :: target)
      by_cases hcd : c = d
      · subst hcd
        simpa only [editDistance_cons_self] using htarget
      · rw [editDistance_cons_ne hcd, editDistance_cons_ne hcd]
        omega

/-- A replaced element in front changes the distance by one at most. -/
theorem editDistance_replace_le (source target : List α) (x y : α) :
    editDistance (x :: source) target ≤ editDistance (y :: source) target + 1 := by
  induction target with
  | nil =>
      simp only [editDistance_nil_right, List.length_cons]
      omega
  | cons d target ih =>
      obtain ⟨-, hshorter⟩ := editDistance_cons_right_close source target d
      obtain ⟨-, hremoved⟩ :=
        editDistance_cons_left_close (editDistance_cons_right_close source) target y
      rw [editDistance_cons_cons, editDistance_cons_cons]
      split <;> split <;> omega

/-- An edit brings a list nearer to another by one at most. -/
theorem editDistance_le_of_edit {source between : List α} (h : Edit source between)
    (target : List α) : editDistance source target ≤ editDistance between target + 1 := by
  have hcons := fun rest : List α =>
    editDistance_cons_left_close (editDistance_cons_right_close rest)
  cases h with
  | insert before x behind =>
      induction before generalizing target with
      | nil => exact (hcons behind target x).2
      | cons c before ih => exact editDistance_cons_le ih c target
  | delete before x behind =>
      induction before generalizing target with
      | nil => exact (hcons behind target x).1
      | cons c before ih => exact editDistance_cons_le ih c target
  | replace before x y behind =>
      induction before generalizing target with
      | nil => exact editDistance_replace_le behind target x y
      | cons c before ih => exact editDistance_cons_le ih c target

/-- No number of edits that leads from one list to another is less than the distance. -/
theorem editDistance_le_of_editedIn {count : Nat} {source target : List α}
    (h : EditedIn count source target) : editDistance source target ≤ count := by
  induction h with
  | refl source => exact Nat.le_of_eq (editDistance_self source)
  | step hedit _ ih => exact Nat.le_trans (editDistance_le_of_edit hedit _) (Nat.succ_le_succ ih)

/-- The distance is the least number of edits. -/
theorem editDistance_eq_iff {count : Nat} {source target : List α} :
    editDistance source target = count ↔ LeastEdits count source target := by
  constructor
  · intro h
    subst h
    exact ⟨editedIn_editDistance source target, fun other => editDistance_le_of_editedIn⟩
  · intro h
    obtain ⟨hedited, hleast⟩ := h
    exact Nat.le_antisymm (editDistance_le_of_editedIn hedited)
      (hleast _ (editedIn_editDistance source target))

/-- A number of edits is enough, or fewer are, exactly when the distance is no greater. -/
theorem editDistance_le_iff {limit : Nat} {source target : List α} :
    editDistance source target ≤ limit ↔ ∃ count, count ≤ limit ∧ EditedIn count source target := by
  constructor
  · intro h
    exact ⟨_, h, editedIn_editDistance source target⟩
  · intro h
    obtain ⟨count, hcount, hedited⟩ := h
    exact Nat.le_trans (editDistance_le_of_editedIn hedited) hcount

/-- The distance is no less than a number exactly when every number of edits that suffices is. -/
theorem le_editDistance_iff {limit : Nat} {source target : List α} :
    limit ≤ editDistance source target ↔ ∀ count, EditedIn count source target → limit ≤ count := by
  constructor
  · intro h count hedited
    exact Nat.le_trans h (editDistance_le_of_editedIn hedited)
  · intro h
    exact h _ (editedIn_editDistance source target)

end ArrayShape.Text
