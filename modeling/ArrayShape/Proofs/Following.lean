import ArrayShape.Interner.Reader
import ArrayShape.Proofs.Interning
import ArrayShape.Proofs.Spellings

/-!
# Computations with keys and computations with texts

A computation with keys follows a computation with texts when it does to the table what calls do,
and what it gives is related to what the other one gives, both in success and in failure. Calls
leave the texts of keys as they are, so a relation that tells the texts of keys still holds when
later steps have changed the table. Steps that follow each other make programs that do (`bind`).
-/

namespace ArrayShape

/-- Both give values, or both fail, and what they give is related. -/
inductive Agree {ε δ α β : Type} (values : α → β → Prop) (errors : ε → δ → Prop) :
    Except ε α → Except δ β → Prop
  | ok {value : α} {other : β} (h : values value other) :
      Agree values errors (.ok value) (.ok other)
  | error {error : ε} {other : δ} (h : errors error other) :
      Agree values errors (.error error) (.error other)

/-- One error is the other, whatever the table is. -/
def Same {Table ε : Type} (_ : Table) (error other : ε) : Prop :=
  error = other

namespace Interning

variable {Table ε α β : Type} {table later : Table} {reading : Interning Table ε α}

/-- Behind a value, what follows goes on in the table that is left. -/
theorem result_bind_ok {next : α → Interning Table ε β} {value : α}
    (h : reading.result table = (.ok value, later)) :
    (reading >>= next).result table = (next value).result later := by
  simp only [result] at h ⊢
  rw [ExceptT.run_bind, StateT.run_bind, h]
  rfl

/-- Behind an error, nothing follows. -/
theorem result_bind_error {next : α → Interning Table ε β} {error : ε}
    (h : reading.result table = (.error error, later)) :
    (reading >>= next).result table = (.error error, later) := by
  simp only [result] at h ⊢
  rw [ExceptT.run_bind, StateT.run_bind, h]
  rfl

end Interning

namespace Interner

variable {Table Key : Type} (interner : Interner Table Key)

/-! ## Later tables -/

/-- Calls lead from a table to another one. -/
def Reaches (table later : Table) : Prop :=
  ∃ calls, interner.after table calls = later

variable {interner} {table later last : Table}

theorem Reaches.refl (table : Table) : interner.Reaches table table :=
  ⟨[], rfl⟩

theorem Reaches.trans (h : interner.Reaches table later) (hlast : interner.Reaches later last) :
    interner.Reaches table last := by
  obtain ⟨calls, rfl⟩ := h
  obtain ⟨more, rfl⟩ := hlast
  exact ⟨calls ++ more, after_append calls more⟩

/-- Keys keep their texts. -/
theorem Reaches.keeps (h : interner.Reaches table later) (key : Key) :
    Keeps (interner.text? table key) (interner.text? later key) := by
  obtain ⟨calls, rfl⟩ := h
  exact fun text htext => text?_after htext calls

/-- No text gets a second key. -/
theorem Reaches.distinct (h : interner.Reaches table later) (hdistinct : interner.Distinct table) :
    interner.Distinct later := by
  obtain ⟨calls, rfl⟩ := h
  exact hdistinct.after calls

/-! ## Following -/

section Following

variable (interner) {ε δ α β γ ζ : Type}

/-- In a table, a computation with keys comes out as one with texts. -/
structure Follows (table : Table) (values : Table → α → β → Prop) (errors : Table → ε → δ → Prop)
    (reading : Interning Table ε α) (expected : Except δ β) : Prop where
  /-- The table behind the computation is reached by calls. -/
  reaches : interner.Reaches table (reading.result table).2
  /-- What is given is related in the table behind the computation. -/
  agrees : Agree (values (reading.result table).2) (errors (reading.result table).2)
    (reading.result table).1 expected

variable {interner} {values : Table → α → β → Prop} {others : Table → γ → ζ → Prop}
  {errors : Table → ε → δ → Prop}

theorem Follows.of_ok {value : α} {other : β} (h : values table value other) :
    interner.Follows table values errors (pure value) (.ok other) :=
  ⟨.refl table, .ok h⟩

theorem Follows.of_error {error : ε} {other : δ} (h : errors table error other) :
    interner.Follows table values errors (throw error) (.error other) :=
  ⟨.refl table, .error h⟩

/-- A computation goes on behind one that gives a value. -/
theorem Follows.bind_ok {reading : Interning Table ε α} {other : β} {next : α → Interning Table ε γ}
    {expected : Except δ ζ} (h : interner.Follows table values errors reading (.ok other))
    (hnext : ∀ value later, interner.Reaches table later → values later value other →
      interner.Follows later others errors (next value) expected) :
    interner.Follows table others errors (reading >>= next) expected := by
  obtain ⟨hreaches, hagrees⟩ := h
  generalize hresult : reading.result table = result at hreaches hagrees
  obtain ⟨outcome, later⟩ := result
  cases hagrees with
  | ok hvalue =>
      obtain ⟨hlater, hresults⟩ := hnext _ later hreaches hvalue
      rw [← Interning.result_bind_ok hresult] at hlater hresults
      exact ⟨hreaches.trans hlater, hresults⟩

/-- Nothing goes on behind a computation that fails. -/
theorem Follows.bind_error {reading : Interning Table ε α} {error : δ}
    (h : interner.Follows table values errors reading (.error error))
    (next : α → Interning Table ε γ) :
    interner.Follows table others errors (reading >>= next) (.error error) := by
  obtain ⟨hreaches, hagrees⟩ := h
  generalize hresult : reading.result table = result at hreaches hagrees
  obtain ⟨outcome, later⟩ := result
  cases hagrees with
  | error herror =>
      refine ⟨?_, ?_⟩ <;> rw [Interning.result_bind_error hresult]
      · exact hreaches
      · exact .error herror

/-- Computations follow one after another. -/
theorem Follows.bind {reading : Interning Table ε α} {expected : Except δ β}
    {next : α → Interning Table ε γ} {following : β → Except δ ζ}
    (h : interner.Follows table values errors reading expected)
    (hnext : ∀ value other later, interner.Reaches table later → values later value other →
      interner.Follows later others errors (next value) (following other)) :
    interner.Follows table others errors (reading >>= next) (expected >>= following) := by
  cases expected with
  | ok other => exact h.bind_ok fun value later => hnext value other later
  | error error => exact h.bind_error next

/-- What is given may be changed on both sides. -/
theorem Follows.map {reading : Interning Table ε α} {expected : Except δ β} {f : α → γ} {g : β → ζ}
    (h : interner.Follows table values errors reading expected)
    (hmap : ∀ value other later, values later value other → others later (f value) (g other)) :
    interner.Follows table others errors (do return f (← reading)) (expected.map g) := by
  cases expected with
  | ok other => exact h.bind_ok fun value later _ hvalue => .of_ok (hmap value other later hvalue)
  | error error => exact h.bind_error _

/-- A step that both take alike, without keys. -/
theorem Follows.lift_bind {step : Except ε α} {values : Table → β → γ → Prop}
    {next : α → Interning Table ε β} {following : α → Except ε γ}
    (hnext : ∀ value, interner.Follows table values Same (next value) (following value)) :
    interner.Follows table values Same ((liftM step : Interning Table ε α) >>= next)
      (step >>= following) := by
  cases step with
  | ok value => exact hnext value
  | error error => exact .of_error rfl

/-- A computation may look at the table. -/
theorem Follows.get_bind {next : Table → Interning Table ε α} {expected : Except δ β}
    (h : interner.Follows table values errors (next table) expected) :
    interner.Follows table values errors (get >>= next) expected := by
  have hresult : (get >>= next).result table = (next table).result table :=
    Interning.result_bind_ok rfl
  obtain ⟨hreaches, hagrees⟩ := h
  rw [← hresult] at hreaches hagrees
  exact ⟨hreaches, hagrees⟩

/-- Entering a text gives a key of the text. -/
theorem follows_enter (table : Table) (text : String) :
    interner.Follows table (fun later key other => interner.text? later key = some other) errors
      (interner.enter text) (.ok text) :=
  ⟨⟨[.intern text], rfl⟩, .ok (interner.intern_entry table text).text_eq⟩

/-- Entering a text that lasts gives a key of the text. -/
theorem follows_enterStatic (table : Table) (text : String) :
    interner.Follows table (fun later key other => interner.text? later key = some other) errors
      (interner.enterStatic text) (.ok text) :=
  ⟨⟨[.internStatic text], rfl⟩, .ok (interner.internStatic_entry table text).text_eq⟩

/-- Errors may be wrapped. -/
theorem Follows.adapt {reading : Interning Table ε α} {expected : Except δ β}
    (h : interner.Follows table values errors reading expected) {wrap : ε → γ} {wrapped : δ → ζ}
    {wrappedErrors : Table → γ → ζ → Prop}
    (hwrap : ∀ later error other, errors later error other →
      wrappedErrors later (wrap error) (wrapped other)) :
    interner.Follows table values wrappedErrors (ExceptT.adapt wrap reading)
      (expected.mapError wrapped) := by
  obtain ⟨hreaches, hagrees⟩ := h
  have hadapt : Interning.result (ExceptT.adapt wrap reading) table =
      ((reading.result table).1.mapError wrap, (reading.result table).2) := rfl
  generalize reading.result table = result at hreaches hagrees hadapt
  obtain ⟨outcome, later⟩ := result
  refine ⟨by rw [hadapt]; exact hreaches, ?_⟩
  rw [hadapt]
  cases hagrees with
  | ok hvalue => exact .ok hvalue
  | error herror => exact .error (hwrap _ _ _ herror)

end Following

end Interner

end ArrayShape
