import ArrayShape.Proofs.InternedShapes

/-!
# The history of an interner is hidden

What a program has asked of an interner decides which keys it gets, and nothing else. A text that is
read behind any calls gives, with keys, what it gives with texts (`follows_parse`), so two histories
cannot be told apart once keys are replaced by their texts. Shapes and labels may be compared by
their keys, also where they were read at different times. `HidesHistory` holds what this says.
-/

namespace ArrayShape

namespace Interner

variable {Table Key : Type} {interner : Interner Table Key}

/-- A failure keeps the texts of its labels. -/
theorem spelled?_failure_keeps {f g : Key → Option String} (h : ∀ key, Keeps (f key) (g key))
    (failure : Failure Key) : Keeps (failure.spelled? f) (failure.spelled? g) := by
  cases failure with
  | malformed error => exact .refl _
  | invalid error => exact .bind (error.mapM_keeps h) fun _ => .refl _

/-- An outcome keeps the texts of its names and labels. -/
theorem spelled?_keeps {table later : Table} (h : interner.Reaches table later)
    (outcome : Except (Failure Key) (Shape Key)) :
    Keeps (interner.spelled? table outcome) (interner.spelled? later outcome) := by
  cases outcome with
  | ok shape => exact .bind (shape.mapM_keeps h.keeps) fun _ => .refl _
  | error failure => exact .bind (spelled?_failure_keeps h.keeps failure) fun _ => .refl _

variable [DecidableEq Key]

/-- What is read has the texts of what is read with texts. -/
theorem spelled?_parse {table : Table} (h : interner.Distinct table) (options : Options)
    (source : String) :
    interner.spelled? ((interner.parse options source).result table).2
        ((interner.parse options source).result table).1 = some (Shape.parse options source) := by
  obtain ⟨-, hagrees⟩ := follows_parse h options source
  generalize (interner.parse options source).result table = result at hagrees ⊢
  generalize Shape.parse options source = expected at hagrees ⊢
  obtain ⟨outcome, later⟩ := result
  cases hagrees with
  | ok hshape => exact Option.bind_eq_some_iff.2 ⟨_, hshape, rfl⟩
  | error hfailure => exact Option.bind_eq_some_iff.2 ⟨_, hfailure, rfl⟩

/-- A shape that is read has the texts of a shape that is read with texts. -/
theorem exists_texts_of_parse {table : Table} (h : interner.Distinct table) {options : Options}
    {source : String} {shape : Shape Key}
    (hshape : ((interner.parse options source).result table).1 = .ok shape) :
    ∃ texts, Shape.parse options source = .ok texts ∧
      shape.mapM (interner.text? ((interner.parse options source).result table).2) =
        some texts := by
  have hspelled := spelled?_parse h options source
  rw [hshape] at hspelled
  obtain ⟨texts, htexts, hparse⟩ := Option.bind_eq_some_iff.1 hspelled
  exact ⟨texts, (Option.some.inj hparse).symm, htexts⟩

variable (interner) in
/-- What a program asked of an interner before does not show. -/
structure HidesHistory (history : List Call) : Prop where
  /-- The answers to calls are what the texts of the calls say. -/
  sound : interner.Sound history
  /-- Keys are equal exactly when their texts are. -/
  key_eq_iff : ∀ key other text text',
    interner.text? (interner.after interner.empty history) key = some text →
    interner.text? (interner.after interner.empty history) other = some text' →
    (key = other ↔ text = text')
  /-- Reading a text leads to a table that calls lead to. -/
  reaches : ∀ options source, ∃ calls, interner.after interner.empty (history ++ calls) =
    (interner.readAfter history options source).2
  /-- Whatever is asked later, the outcome has the texts of what is read with texts. -/
  outcome_eq : ∀ options source later,
    interner.spelled? (interner.after (interner.readAfter history options source).2 later)
      (interner.readAfter history options source).1 = some (Shape.parse options source)
  /-- Behind other calls, the outcome has the same texts. -/
  outcome_congr : ∀ other options source,
    interner.spelled? (interner.readAfter history options source).2
        (interner.readAfter history options source).1 =
      interner.spelled? (interner.readAfter other options source).2
        (interner.readAfter other options source).1
  /-- Whatever is asked later, the printed form and the free names are those of the shape that is
  read with texts. -/
  views_eq : ∀ options source shape, (interner.readAfter history options source).1 = .ok shape →
    ∃ texts, Shape.parse options source = .ok texts ∧ ∀ later,
      let table := interner.after (interner.readAfter history options source).2 later
      let text? := interner.text? table
      shape.textM text? = some texts.text ∧ shape.freeVars.mapM text? = some texts.freeVars
  /-- Shapes are equal exactly when those that are read with texts are, also if one was read
  earlier than the other. -/
  shape_beq_eq : ∀ between options source options' source' first second,
    (interner.readAfter history options source).1 = .ok first →
    ((interner.parse options' source').result
      (interner.after (interner.readAfter history options source).2 between)).1 = .ok second →
    ∃ texts texts', Shape.parse options source = .ok texts ∧
      Shape.parse options' source' = .ok texts' ∧ (first == second) = (texts == texts')
  /-- Labels are repeated where their texts are. -/
  repeats_eq : ∀ fields texts,
    Term.mapFieldsM (interner.text? (interner.after interner.empty history)) fields = some texts →
    (Shape.repeats fields).mapM
        (Spanned.mapM (interner.text? (interner.after interner.empty history))) =
      some (Shape.repeats texts)
  /-- Labels that are listed once each are those whose texts are. -/
  eraseDups_eq : ∀ (labels : List Key) (texts : List String),
    labels.mapM (interner.text? (interner.after interner.empty history)) = some texts →
    labels.eraseDups.mapM (interner.text? (interner.after interner.empty history)) =
      some texts.eraseDups

/-- Every program's history is hidden. -/
theorem hidesHistory (interner : Interner Table Key) (history : List Call) :
    interner.HidesHistory history where
  sound := interner.sound history
  key_eq_iff key other text text' hkey hother :=
    (distinct_after interner history).eq_iff hkey hother
  reaches options source := by
    have hdistinct := distinct_after interner history
    obtain ⟨calls, hcalls⟩ := (follows_parse hdistinct options source).reaches
    exact ⟨calls, (after_append history calls).trans hcalls⟩
  outcome_eq options source later := by
    refine spelled?_keeps ⟨later, rfl⟩ _ _ ?_
    exact spelled?_parse (distinct_after interner history) options source
  outcome_congr other options source := by
    have hfirst := spelled?_parse (distinct_after interner history) options source
    exact hfirst.trans (spelled?_parse (distinct_after interner other) options source).symm
  views_eq options source shape hshape := by
    have hdistinct := distinct_after interner history
    obtain ⟨texts, hparse, hspells⟩ := exists_texts_of_parse hdistinct hshape
    refine ⟨texts, hparse, fun later => ?_⟩
    have hlater := shape.mapM_keeps (Reaches.keeps ⟨later, rfl⟩) texts hspells
    exact ⟨Shape.textM_eq hlater, Shape.freeVars_mapM hlater⟩
  shape_beq_eq between options source options' source' first second hfirst hsecond := by
    have hempty : interner.Distinct (interner.after interner.empty history) :=
      distinct_after interner history
    have hread : interner.Distinct (interner.readAfter history options source).2 :=
      (follows_parse hempty options source).reaches.distinct hempty
    have hbetween : interner.Reaches (interner.readAfter history options source).2
        (interner.after (interner.readAfter history options source).2 between) :=
      ⟨between, rfl⟩
    have hlast := (follows_parse (hbetween.distinct hread) options' source').reaches
    obtain ⟨texts, hparse, hfirst⟩ := exists_texts_of_parse hempty hfirst
    obtain ⟨texts', hparse', hsecond⟩ := exists_texts_of_parse (hbetween.distinct hread) hsecond
    refine ⟨texts, texts', hparse, hparse', ?_⟩
    -- The keys of the first shape keep their texts until the second is read, in whose table no two
    -- keys have one text.
    have hkept := first.mapM_keeps (hbetween.trans hlast).keeps texts hfirst
    exact (hlast.distinct (hbetween.distinct hread)).shape.beq_eq hkept hsecond
  repeats_eq fields texts hfields :=
    Shape.repeats_mapM (distinct_after interner history) hfields
  eraseDups_eq labels texts hlabels :=
    (distinct_after interner history).eraseDups_mapM hlabels

/-- What an outcome gives as an option, it gives. -/
theorem eq_ok_of_toOption {ε α : Type} {outcome : Except ε α} {value : α}
    (h : outcome.toOption = some value) : outcome = .ok value := by
  cases outcome with
  | error error => cases h
  | ok other => exact congrArg Except.ok (Option.some.inj h)

/-- Behind a call, the symbols of a text change places, and their texts stay. -/
theorem symbols_readAfter :
    (SymbolTable.interner.readAfter [] {} "N, x").1 = .ok ⟨[.typeVar ⟨0⟩, .typeVar ⟨1⟩]⟩ ∧
    (SymbolTable.interner.readAfter [.intern "x"] {} "N, x").1 =
      .ok ⟨[.typeVar ⟨1⟩, .typeVar ⟨0⟩]⟩ ∧
    SymbolTable.interner.spelled? (SymbolTable.interner.readAfter [] {} "N, x").2
        (SymbolTable.interner.readAfter [] {} "N, x").1 =
      SymbolTable.interner.spelled? (SymbolTable.interner.readAfter [.intern "x"] {} "N, x").2
        (SymbolTable.interner.readAfter [.intern "x"] {} "N, x").1 :=
  ⟨eq_ok_of_toOption (by decide +kernel), eq_ok_of_toOption (by decide +kernel),
    (hidesHistory SymbolTable.interner []).outcome_congr [.intern "x"] {} "N, x"⟩

end Interner

end ArrayShape
