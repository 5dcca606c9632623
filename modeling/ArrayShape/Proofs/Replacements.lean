/-!
# Partial replacements

A partial function replaces names, as a table replaces keys by their texts. A function `Separates`
names if it gives no two of them the same replacement: names, and lists of names, may then be
compared in place of their replacements. A function that is defined for more names `Keeps` what was
replaced before.
-/

namespace ArrayShape

/-! ## Lists -/

theorem mapM_cons_eq_some {α β : Type} {f : α → Option β} {value : α} {rest : List α}
    {others : List β} : (value :: rest).mapM f = some others ↔ ∃ other, f value = some other ∧
      ∃ rest', rest.mapM f = some rest' ∧ other :: rest' = others := by
  simp [Option.bind_eq_some_iff]

/-- A list is as long as its replacement. -/
theorem length_of_mapM {α β : Type} {f : α → Option β} {values : List α} {others : List β}
    (h : values.mapM f = some others) : values.length = others.length := by
  induction values generalizing others with
  | nil =>
      cases h
      rfl
  | cons value rest ih =>
      obtain ⟨other, -, rest', hrest, rfl⟩ := mapM_cons_eq_some.1 h
      exact congrArg Nat.succ (ih hrest)

/-! ## More replacements -/

/-- What the first gives, if anything, the second gives as well. -/
def Keeps {α : Type} (before after : Option α) : Prop :=
  ∀ value, before = some value → after = some value

namespace Keeps

variable {α β : Type}

theorem refl (result : Option α) : Keeps result result :=
  fun _ h => h

/-- A result that is kept is kept by what follows it. -/
theorem bind {before after : Option α} {following next : α → Option β} (h : Keeps before after)
    (hnext : ∀ value, Keeps (following value) (next value)) :
    Keeps (before >>= following) (after >>= next) := by
  intro result hresult
  obtain ⟨value, hvalue, hfollowing⟩ := Option.bind_eq_some_iff.1 hresult
  exact Option.bind_eq_some_iff.2 ⟨value, h value hvalue, hnext value result hfollowing⟩

/-- Results for the members of a list are kept together. -/
theorem mapM {f g : α → Option β} (h : ∀ value, Keeps (f value) (g value)) (values : List α) :
    Keeps (values.mapM f) (values.mapM g) := by
  induction values with
  | nil => exact refl _
  | cons value rest ih =>
      rw [List.mapM_cons, List.mapM_cons]
      exact bind (h value) fun _ => bind ih fun _ => refl _

end Keeps

/-! ## Replacements that tell names apart -/

/-- No two names have the same replacement. -/
def Separates {Name Other : Type} (f : Name → Option Other) : Prop :=
  ∀ first second other, f first = some other → f second = some other → first = second

namespace Separates

variable {Name Other : Type} {f : Name → Option Other}

/-- Names are equal exactly when their replacements are. -/
theorem eq_iff (h : Separates f) {first second : Name} {first' second' : Other}
    (hfirst : f first = some first') (hsecond : f second = some second') :
    first = second ↔ first' = second' := by
  constructor
  · intro heq
    subst heq
    exact Option.some.inj (hfirst.symm.trans hsecond)
  · intro heq
    subst heq
    exact h first second first' hfirst hsecond

/-- Names are told apart where their replacements are. -/
theorem beq_eq [DecidableEq Name] [DecidableEq Other] (h : Separates f) {first second : Name}
    {first' second' : Other} (hfirst : f first = some first') (hsecond : f second = some second') :
    (first == second) = (first' == second') := by
  rw [Bool.eq_iff_iff, beq_iff_eq, beq_iff_eq, h.eq_iff hfirst hsecond]

/-- No two lists of names have the same replacement. -/
theorem mapM (h : Separates f) : Separates (List.mapM f) := by
  intro first second others hfirst hsecond
  induction first generalizing second others with
  | nil =>
      cases hfirst
      cases second with
      | nil => rfl
      | cons value rest => simp [Option.bind_eq_some_iff] at hsecond
  | cons value rest ih =>
      obtain ⟨other, hvalue, others, hrest, rfl⟩ := mapM_cons_eq_some.1 hfirst
      cases second with
      | nil => cases hsecond
      | cons value' rest' =>
          obtain ⟨_, hvalue', _, hrest', ⟨⟩⟩ := mapM_cons_eq_some.1 hsecond
          rw [h value value' other hvalue hvalue', ih rest' others hrest hrest']

section Lists

variable [DecidableEq Name] [DecidableEq Other]

/-- A name is among others exactly when its replacement is among theirs. -/
theorem contains_eq (h : Separates f) {names : List Name} {others : List Other} {name : Name}
    {other : Other} (hnames : names.mapM f = some others) (hname : f name = some other) :
    names.contains name = others.contains other := by
  induction names generalizing others with
  | nil =>
      cases hnames
      rfl
  | cons first rest ih =>
      obtain ⟨first', hfirst, rest', hrest, rfl⟩ := mapM_cons_eq_some.1 hnames
      rw [List.contains_cons, List.contains_cons, ih hrest, h.beq_eq hname hfirst]

/-- The names other than a given one are replaced by what is not its replacement. -/
theorem filter_ne_mapM (h : Separates f) {names : List Name} {others : List Other} {name : Name}
    {other : Other} (hnames : names.mapM f = some others) (hname : f name = some other) :
    (names.filter fun value => !value == name).mapM f =
      some (others.filter fun value => !value == other) := by
  induction names generalizing others with
  | nil =>
      cases hnames
      rfl
  | cons first rest ih =>
      obtain ⟨first', hfirst, rest', hrest, rfl⟩ := mapM_cons_eq_some.1 hnames
      rw [List.filter_cons, List.filter_cons, h.beq_eq hfirst hname]
      cases first' == other with
      | true => exact ih hrest
      | false => exact mapM_cons_eq_some.2 ⟨first', hfirst, _, ih hrest, rfl⟩

/-- Names that are listed once each have replacements that are listed once each. -/
theorem eraseDups_mapM (h : Separates f) {names : List Name} {others : List Other}
    (hnames : names.mapM f = some others) : names.eraseDups.mapM f = some others.eraseDups := by
  match names with
  | [] =>
      cases hnames
      rfl
  | name :: rest =>
      obtain ⟨other, hname, rest', hrest, rfl⟩ := mapM_cons_eq_some.1 hnames
      rw [List.eraseDups_cons, List.eraseDups_cons]
      have hfewer : (rest.filter fun value => !value == name).length < rest.length + 1 :=
        Nat.lt_succ_of_le (List.length_filter_le _ _)
      exact mapM_cons_eq_some.2
        ⟨other, hname, _, h.eraseDups_mapM (h.filter_ne_mapM hrest hname), rfl⟩
termination_by names.length

end Lists

end Separates

end ArrayShape
