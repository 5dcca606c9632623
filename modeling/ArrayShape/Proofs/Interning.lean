import ArrayShape.Interner.Basic
import ArrayShape.Proofs.Replacements

/-!
# Keys stand for texts

Whatever an interner is asked, a key keeps its text, no two keys have the same text, and the texts
that have keys are those that were entered. `step_cases` says what one call does, and the rest
follows from it by induction on the calls. `Sound` holds what this says about the answers of a
program from its start.
-/

namespace ArrayShape

namespace Entry

variable {Key : Type} {before after : Key → Option String} {text : String} {key : Key}

/-- The key has the text that was entered. -/
theorem text_eq (h : Entry before text key after) : after key = some text := by
  cases h with
  | known has same => rw [same, has]
  | fresh missing free takes others => exact takes

/-- A key that has a text keeps it. -/
theorem keeps (h : Entry before text key after) {other : Key} {spelling : String}
    (hother : before other = some spelling) : after other = some spelling := by
  cases h with
  | known has same => rw [same, hother]
  | fresh missing free takes others =>
      have hne : other ≠ key := by
        intro heq
        rw [heq, free] at hother
        cases hother
      rw [others other hne, hother]

/-- A key has a text that it had before, or else it is the key of the text that was entered. -/
theorem eq_some_iff (h : Entry before text key after) {other : Key} {spelling : String} :
    after other = some spelling ↔
      before other = some spelling ∨ other = key ∧ spelling = text := by
  constructor
  · intro hother
    by_cases heq : other = key
    · subst heq
      exact .inr ⟨rfl, Option.some.inj (hother.symm.trans h.text_eq)⟩
    · cases h with
      | known has same => exact .inl (same ▸ hother)
      | fresh missing free takes others => exact .inl (others other heq ▸ hother)
  · intro hother
    rcases hother with hbefore | ⟨rfl, rfl⟩
    · exact h.keeps hbefore
    · exact h.text_eq

/-- Where no two keys have the same text, the key of a text is the one that had it before. -/
theorem eq_of_before (h : Entry before text key after) (hseparates : Separates before)
    {other : Key} (hother : before other = some text) : other = key := by
  cases h with
  | known has same => exact hseparates other key text hother has
  | fresh missing free takes others => exact absurd hother (missing other)

end Entry

namespace Interner

variable {Table Key : Type} (interner : Interner Table Key)

/-- No two keys have the same text. -/
abbrev Distinct (table : Table) : Prop :=
  Separates (interner.text? table)

/-- A key has the text. -/
def Holds (table : Table) (text : String) : Prop :=
  ∃ key, interner.text? table key = some text

variable {interner} {table : Table} {call : Call} {key : Key} {text : String}

/-! ## One call -/

/-- A call looks for a text, or else enters it and answers with its key. -/
theorem step_cases (interner : Interner Table Key) (table : Table) (call : Call) :
    call.entered? = none ∧ interner.step table call = (table, interner.get? table call.text) ∨
      call.entered? = some call.text ∧ ∃ key later, interner.step table call = (later, some key) ∧
        Entry (interner.text? table) call.text key (interner.text? later) := by
  cases call with
  | intern text => exact .inr ⟨rfl, _, _, rfl, interner.intern_entry table text⟩
  | internStatic text => exact .inr ⟨rfl, _, _, rfl, interner.internStatic_entry table text⟩
  | get text => exact .inl ⟨rfl, rfl⟩

/-- A text is found exactly when a key has it. -/
theorem get?_isSome_iff : (interner.get? table text).isSome ↔ interner.Holds table text := by
  cases hget : interner.get? table text with
  | some key => simpa using ⟨key, interner.text?_of_get? hget⟩
  | none => simpa [Holds] using interner.text?_ne_of_get? hget

/-- A key keeps its text. -/
theorem text?_step (h : interner.text? table key = some text) :
    interner.text? (interner.step table call).1 key = some text := by
  obtain ⟨-, hstep⟩ | ⟨-, entered, later, hstep, hentry⟩ := interner.step_cases table call
  · rw [hstep, h]
  · rw [hstep, hentry.keeps h]

/-- A key that is answered has the text of the call. -/
theorem text?_of_answer (h : (interner.step table call).2 = some key) :
    interner.text? (interner.step table call).1 key = some call.text := by
  obtain ⟨-, hstep⟩ | ⟨-, entered, later, hstep, hentry⟩ := interner.step_cases table call
  · rw [hstep] at h ⊢
    exact interner.text?_of_get? h
  · rw [hstep] at h ⊢
    rw [← Option.some.inj h, hentry.text_eq]

/-- A call gives no text a second key. -/
theorem Distinct.step (h : interner.Distinct table) (call : Call) :
    interner.Distinct (interner.step table call).1 := by
  obtain ⟨-, hstep⟩ | ⟨-, entered, later, hstep, hentry⟩ := interner.step_cases table call
  · rw [hstep]
    exact h
  · rw [hstep]
    intro key other text hkey hother
    rcases hentry.eq_some_iff.1 hkey with hfirst | ⟨hfirst, htext⟩
    · rcases hentry.eq_some_iff.1 hother with hsecond | ⟨hsecond, htext⟩
      · exact h key other text hfirst hsecond
      · rw [htext] at hfirst
        exact (hentry.eq_of_before h hfirst).trans hsecond.symm
    · rcases hentry.eq_some_iff.1 hother with hsecond | ⟨hsecond, -⟩
      · rw [htext] at hsecond
        exact hfirst.trans (hentry.eq_of_before h hsecond).symm
      · rw [hfirst, hsecond]

/-- Behind a call, a key has the texts that had one before and the text that was entered. -/
theorem holds_step_iff : interner.Holds (interner.step table call).1 text ↔
    interner.Holds table text ∨ call.entered? = some text := by
  obtain ⟨hnone, hstep⟩ | ⟨hentered, entered, later, hstep, hentry⟩ :=
    interner.step_cases table call
  · rw [hstep, hnone]
    simp
  · rw [hstep, hentered]
    simp only [Holds, hentry.eq_some_iff, exists_or, exists_eq_left, Option.some.injEq]
    rw [eq_comm (a := text)]

/-! ## Many calls -/

@[simp] theorem after_nil : interner.after table [] = table := rfl

@[simp] theorem after_cons (calls : List Call) :
    interner.after table (call :: calls) = interner.after (interner.step table call).1 calls := rfl

/-- Calls may be answered one list after another. -/
theorem after_append (calls more : List Call) :
    interner.after table (calls ++ more) = interner.after (interner.after table calls) more := by
  induction calls generalizing table with
  | nil => rfl
  | cons call rest ih => exact ih

/-- A key keeps its text. -/
theorem text?_after (h : interner.text? table key = some text) (calls : List Call) :
    interner.text? (interner.after table calls) key = some text := by
  induction calls generalizing table with
  | nil => exact h
  | cons call rest ih => exact ih (text?_step h)

/-- Calls give no text a second key. -/
theorem Distinct.after (h : interner.Distinct table) (calls : List Call) :
    interner.Distinct (interner.after table calls) := by
  induction calls generalizing table with
  | nil => exact h
  | cons call rest ih => exact ih (h.step call)

/-- Behind calls, a key has the texts that had one before and the texts that were entered. -/
theorem holds_after_iff (calls : List Call) : interner.Holds (interner.after table calls) text ↔
    interner.Holds table text ∨ ∃ call ∈ calls, call.entered? = some text := by
  induction calls generalizing table with
  | nil => simp
  | cons call rest ih =>
      rw [after_cons, ih, holds_step_iff, or_assoc]
      simp

/-- A key that is answered to one of the calls has the text of the call. -/
theorem text?_of_mem_run {calls : List Call}
    (h : (call, some key) ∈ calls.zip (interner.run table calls).2) :
    interner.text? (interner.after table calls) key = some call.text := by
  induction calls generalizing table with
  | nil => cases h
  | cons first rest ih =>
      have hmem : (call, some key) ∈ (first, (interner.step table first).2) ::
          rest.zip (interner.run (interner.step table first).1 rest).2 := h
      rcases List.mem_cons.1 hmem with hfirst | hrest
      · obtain ⟨rfl, hanswer⟩ := Prod.mk.inj hfirst
        exact text?_after (text?_of_answer hanswer.symm) rest
      · exact ih hrest

/-- The table without texts gives no text two keys. -/
theorem distinct_empty (interner : Interner Table Key) : interner.Distinct interner.empty := by
  intro key other text hkey
  rw [interner.text?_empty] at hkey
  cases hkey

/-- A program's calls give no text two keys. -/
theorem distinct_after (interner : Interner Table Key) (calls : List Call) :
    interner.Distinct (interner.after interner.empty calls) :=
  (distinct_empty interner).after calls

/-- What the answers to a program's calls say. -/
structure Sound (interner : Interner Table Key) (calls : List Call) : Prop where
  /-- Keys that are answered are equal exactly when the texts of the calls are. -/
  same_iff : ∀ call other key key', (call, some key) ∈ interner.answered calls →
    (other, some key') ∈ interner.answered calls → (key = key' ↔ call.text = other.text)
  /-- A key that was answered has the text of its call, whatever is asked later. -/
  lasting : ∀ call key, (call, some key) ∈ interner.answered calls → ∀ more,
    interner.text? (interner.after interner.empty (calls ++ more)) key = some call.text
  /-- Behind the calls, a text is found exactly when one of them entered it. -/
  found_iff : ∀ text, (interner.get? (interner.after interner.empty calls) text).isSome ↔
    ∃ call ∈ calls, call.entered? = some text

/-- Keys stand for texts in every program. -/
theorem sound (interner : Interner Table Key) (calls : List Call) : interner.Sound calls where
  same_iff call other key key' hcall hother := by
    have hkey := text?_of_mem_run hcall
    have hkey' := text?_of_mem_run hother
    exact (distinct_after interner calls).eq_iff hkey hkey'
  lasting call key hcall more := by
    rw [after_append]
    exact text?_after (text?_of_mem_run hcall) more
  found_iff text := by
    have hempty : ¬ interner.Holds interner.empty text := by
      intro h
      obtain ⟨key, hkey⟩ := h
      rw [interner.text?_empty] at hkey
      cases hkey
    rw [get?_isSome_iff, holds_after_iff]
    exact or_iff_right hempty

end Interner

end ArrayShape
