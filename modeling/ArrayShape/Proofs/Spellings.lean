import ArrayShape.Proofs.Replacements
import ArrayShape.Shape.MapNames
import ArrayShape.Shape.OfTree

/-!
# Shapes whose names are replaced

The names of a shape are replaced by a partial function, such as the one that gives the text of a
key. A function that is defined for more names keeps what was replaced before (`mapM_keeps`). If no
two names have the same replacement, no two shapes have (`Separates.shape`), and labels are repeated
exactly where their replacements are (`repeats_mapM`). The printed form and the free names are those
of the replacement.
-/

namespace ArrayShape

variable {Name Other : Type} {f g : Name → Option Other}

/-! ## What a replacement is -/

theorem Spanned.mapM_eq_some {spanned : Spanned Name} {other : Spanned Other} :
    spanned.mapM f = some other ↔ ∃ value, f spanned.value = some value ∧
      ⟨spanned.range, value⟩ = other := by
  simp [mapM, Option.bind_eq_some_iff]

theorem Term.mapM_name_eq_some {range : ByteRange} {word : Name} {other : Term Other} :
    (Term.name range word).mapM f = some other ↔
      ∃ found, f word = some found ∧ .name range found = other := by
  simp [mapM, Option.bind_eq_some_iff]

theorem Term.mapM_record_eq_some {range : ByteRange} {fields : TermFields Name}
    {other : Term Other} : (Term.record range fields).mapM f = some other ↔
      ∃ found, mapFieldsM f fields = some found ∧ .record range found = other := by
  simp [mapM, Option.bind_eq_some_iff]

theorem Term.mapM_group_eq_some {range : ByteRange} {members : List (Term Name)}
    {other : Term Other} : (Term.group range members).mapM f = some other ↔
      ∃ found, mapAllM f members = some found ∧ .group range found = other := by
  simp [mapM, Option.bind_eq_some_iff]

theorem Term.mapAllM_cons_eq_some {term : Term Name} {rest : List (Term Name)}
    {others : List (Term Other)} : mapAllM f (term :: rest) = some others ↔
      ∃ term', term.mapM f = some term' ∧
        ∃ rest', mapAllM f rest = some rest' ∧ term' :: rest' = others := by
  simp [mapAllM, Option.bind_eq_some_iff]

theorem Term.mapFieldM_eq_some {field : Spanned Name × Term Name}
    {other : Spanned Other × Term Other} :
    mapFieldM f field = some other ↔ ∃ label', field.1.mapM f = some label' ∧
      ∃ type', field.2.mapM f = some type' ∧ (label', type') = other := by
  simp [mapFieldM, Option.bind_eq_some_iff]

theorem Term.mapFieldsM_cons_eq_some {label : Spanned Name} {type : Term Name}
    {rest : TermFields Name} {others : TermFields Other} :
    mapFieldsM f ((label, type) :: rest) = some others ↔ ∃ label', label.mapM f = some label' ∧
      ∃ type', type.mapM f = some type' ∧
        ∃ rest', mapFieldsM f rest = some rest' ∧ (label', type') :: rest' = others := by
  simp [mapFieldsM, Option.bind_eq_some_iff]

namespace Operand

theorem mapM_typeVar_eq_some {name : Name} {other : Operand Other} :
    (Operand.typeVar name).mapM f = some other ↔
      ∃ found, f name = some found ∧ .typeVar found = other := by
  simp [mapM, Option.bind_eq_some_iff]

theorem mapM_record_eq_some {fields : Fields Name} {other : Operand Other} :
    (Operand.record fields).mapM f = some other ↔
      ∃ found, mapFieldsM f fields = some found ∧ .record found = other := by
  simp [mapM, Option.bind_eq_some_iff]

theorem mapFieldsM_cons_eq_some {label : Name} {type : Operand Name} {rest : Fields Name}
    {others : Fields Other} :
    mapFieldsM f ((label, type) :: rest) = some others ↔ ∃ label', f label = some label' ∧
      ∃ type', type.mapM f = some type' ∧
        ∃ rest', mapFieldsM f rest = some rest' ∧ (label', type') :: rest' = others := by
  simp [mapFieldsM, Option.bind_eq_some_iff]

theorem mapTypesM_cons_eq_some {text : String} {type : Operand Name}
    {rest : List (String × Operand Name)} {others : List (String × Operand Other)} :
    mapTypesM f ((text, type) :: rest) = some others ↔ ∃ type', type.mapM f = some type' ∧
      ∃ rest', mapTypesM f rest = some rest' ∧ (text, type') :: rest' = others := by
  simp [mapTypesM, Option.bind_eq_some_iff]

end Operand

theorem Shape.mapM_eq_some {shape : Shape Name} {other : Shape Other} : shape.mapM f = some other ↔
    ∃ operands, shape.operands.mapM (Operand.mapM f) = some operands ∧ ⟨operands⟩ = other := by
  simp [mapM, Option.bind_eq_some_iff]

/-! ## More replacements -/

theorem Spanned.mapM_keeps (h : ∀ name, Keeps (f name) (g name)) (spanned : Spanned Name) :
    Keeps (spanned.mapM f) (spanned.mapM g) :=
  .bind (h spanned.value) fun _ => .refl _

namespace Term

mutual
/-- A term keeps the replacement of its names. -/
theorem mapM_keeps (h : ∀ name, Keeps (f name) (g name)) (term : Term Name) :
    Keeps (term.mapM f) (term.mapM g) := by
  cases term with
  | name range word => exact .bind (h word) fun _ => .refl _
  | record range fields => exact .bind (mapFieldsM_keeps h fields) fun _ => .refl _
  | group range members => exact .bind (mapAllM_keeps h members) fun _ => .refl _
  | _ => exact .refl _

/-- Terms keep the replacements of their names. -/
theorem mapAllM_keeps (h : ∀ name, Keeps (f name) (g name)) (terms : List (Term Name)) :
    Keeps (mapAllM f terms) (mapAllM g terms) := by
  match terms with
  | [] => exact .refl _
  | term :: rest =>
      exact .bind (mapM_keeps h term) fun _ => .bind (mapAllM_keeps h rest) fun _ => .refl _

/-- Fields keep the replacements of their names. -/
theorem mapFieldsM_keeps (h : ∀ name, Keeps (f name) (g name)) (fields : TermFields Name) :
    Keeps (mapFieldsM f fields) (mapFieldsM g fields) := by
  match fields with
  | [] => exact .refl _
  | (label, type) :: rest =>
      exact .bind (label.mapM_keeps h) fun _ => .bind (mapM_keeps h type) fun _ =>
        .bind (mapFieldsM_keeps h rest) fun _ => .refl _
end

end Term

namespace Operand

mutual
/-- An operand keeps the replacement of its names. -/
theorem mapM_keeps (h : ∀ name, Keeps (f name) (g name)) (operand : Operand Name) :
    Keeps (operand.mapM f) (operand.mapM g) := by
  cases operand with
  | typeVar name => exact .bind (h name) fun _ => .refl _
  | record fields => exact .bind (mapFieldsM_keeps h fields) fun _ => .refl _
  | _ => exact .refl _

/-- Fields keep the replacements of their names. -/
theorem mapFieldsM_keeps (h : ∀ name, Keeps (f name) (g name)) (fields : Fields Name) :
    Keeps (mapFieldsM f fields) (mapFieldsM g fields) := by
  match fields with
  | [] => exact .refl _
  | (label, type) :: rest =>
      exact .bind (h label) fun _ => .bind (mapM_keeps h type) fun _ =>
        .bind (mapFieldsM_keeps h rest) fun _ => .refl _
end

end Operand

/-- A shape keeps the replacement of its names. -/
theorem Shape.mapM_keeps (h : ∀ name, Keeps (f name) (g name)) (shape : Shape Name) :
    Keeps (shape.mapM f) (shape.mapM g) :=
  .bind (.mapM (Operand.mapM_keeps h) shape.operands) fun _ => .refl _

/-- An error keeps the replacement of its labels. -/
theorem CheckError.mapM_keeps (h : ∀ name, Keeps (f name) (g name)) (error : CheckError Name) :
    Keeps (error.mapM f) (error.mapM g) := by
  cases error with
  | repeatedLabels range labels =>
      exact .bind (.mapM (Spanned.mapM_keeps h) labels) fun _ => .refl _
  | _ => exact .refl _

/-- A type is found by what it is called where its replacement is. -/
theorem Operand.lookup_mapTypesM {types : List (String × Operand Name)}
    {others : List (String × Operand Other)} (h : mapTypesM f types = some others) (text : String) :
    Option.Rel (fun type other => type.mapM f = some other) (types.lookup text)
      (others.lookup text) := by
  induction types generalizing others with
  | nil =>
      cases h
      exact .none
  | cons entry rest ih =>
      obtain ⟨type', htype, rest', hrest, rfl⟩ := mapTypesM_cons_eq_some.1 h
      rw [List.lookup_cons, List.lookup_cons]
      cases text == entry.1 with
      | true => exact .some htype
      | false => exact ih hrest

/-- A term takes as much of the text as its replacement. -/
theorem Term.range_of_mapM {term : Term Name} {other : Term Other} (h : term.mapM f = some other) :
    term.range = other.range := by
  cases term with
  | name range word =>
      obtain ⟨found, -, rfl⟩ := mapM_name_eq_some.1 h
      rfl
  | record range fields =>
      obtain ⟨found, -, rfl⟩ := mapM_record_eq_some.1 h
      rfl
  | group range members =>
      obtain ⟨found, -, rfl⟩ := mapM_group_eq_some.1 h
      rfl
  | _ =>
      cases h
      rfl

/-! ## Equality -/

namespace Operand

mutual
/-- Operands with the same replacement are equal. -/
theorem mapM_inj (h : Separates f) {first second : Operand Name} {other : Operand Other}
    (hfirst : first.mapM f = some other) (hsecond : second.mapM f = some other) :
    first = second := by
  cases first with
  | typeVar name =>
      obtain ⟨found, hname, rfl⟩ := mapM_typeVar_eq_some.1 hfirst
      cases second with
      | typeVar name' =>
          obtain ⟨_, hname', ⟨⟩⟩ := mapM_typeVar_eq_some.1 hsecond
          rw [h name name' found hname hname']
      | _ => simp [mapM, Option.bind_eq_some_iff] at hsecond
  | record fields =>
      obtain ⟨found, hfields, rfl⟩ := mapM_record_eq_some.1 hfirst
      cases second with
      | record fields' =>
          obtain ⟨_, hfields', ⟨⟩⟩ := mapM_record_eq_some.1 hsecond
          rw [mapFieldsM_inj h hfields hfields']
      | _ => simp [mapM, Option.bind_eq_some_iff] at hsecond
  | _ =>
      cases hfirst
      cases second <;> simp_all [mapM, Option.bind_eq_some_iff]

/-- Fields with the same replacements are equal. -/
theorem mapFieldsM_inj (h : Separates f) {first second : Fields Name} {others : Fields Other}
    (hfirst : mapFieldsM f first = some others) (hsecond : mapFieldsM f second = some others) :
    first = second := by
  match first, second with
  | [], [] => rfl
  | [], (label, type) :: rest =>
      cases hfirst
      simp [mapFieldsM_cons_eq_some] at hsecond
  | (label, type) :: rest, [] =>
      cases hsecond
      simp [mapFieldsM_cons_eq_some] at hfirst
  | (label, type) :: rest, (label', type') :: rest' =>
      obtain ⟨name, hlabel, operand, htype, fields, hrest, rfl⟩ := mapFieldsM_cons_eq_some.1 hfirst
      obtain ⟨_, hlabel', _, htype', _, hrest', ⟨⟩⟩ := mapFieldsM_cons_eq_some.1 hsecond
      rw [h label label' name hlabel hlabel', mapM_inj h htype htype',
        mapFieldsM_inj h hrest hrest']
end

end Operand

/-- No two shapes have the same replacement. -/
theorem Separates.shape (h : Separates f) : Separates (Shape.mapM f) := by
  intro first second other hfirst hsecond
  have hoperand : Separates (Operand.mapM f) := fun _ _ _ => Operand.mapM_inj h
  obtain ⟨operands, hoperands, rfl⟩ := Shape.mapM_eq_some.1 hfirst
  obtain ⟨_, hoperands', ⟨⟩⟩ := Shape.mapM_eq_some.1 hsecond
  exact congrArg Shape.mk (hoperand.mapM _ _ operands hoperands hoperands')

/-! ## Repeated labels -/

/-- The labels of fields are replaced in order. -/
theorem Term.labels_mapM {fields : TermFields Name} {others : TermFields Other}
    (h : mapFieldsM f fields = some others) :
    (fields.map Prod.fst).mapM (Spanned.mapM f) = some (others.map Prod.fst) := by
  induction fields generalizing others with
  | nil =>
      cases h
      rfl
  | cons field rest ih =>
      obtain ⟨label', hlabel, type', -, rest', hrest, rfl⟩ := mapFieldsM_cons_eq_some.1 h
      exact mapM_cons_eq_some.2 ⟨label', hlabel, _, ih hrest, rfl⟩

namespace Shape

variable [DecidableEq Name] [DecidableEq Other]

/-- Labels are repeated exactly where their replacements are. -/
theorem repeatsAfter_mapM (h : Separates f) {seen : List Name} {seen' : List Other}
    (hseen : seen.mapM f = some seen') {labels : List (Spanned Name)}
    {others : List (Spanned Other)} (hlabels : labels.mapM (Spanned.mapM f) = some others) :
    (repeatsAfter seen labels).mapM (Spanned.mapM f) = some (repeatsAfter seen' others) := by
  induction labels generalizing seen seen' others with
  | nil =>
      cases hlabels
      rfl
  | cons label rest ih =>
      obtain ⟨label', hlabel, rest', hrest, rfl⟩ := mapM_cons_eq_some.1 hlabels
      obtain ⟨value, hvalue, rfl⟩ := Spanned.mapM_eq_some.1 hlabel
      have hlater := ih (mapM_cons_eq_some.2 ⟨value, hvalue, seen', hseen, rfl⟩) hrest
      rw [repeatsAfter, repeatsAfter, h.contains_eq hseen hvalue]
      cases hcontains : seen'.contains value with
      | true => exact mapM_cons_eq_some.2 ⟨_, hlabel, _, hlater, rfl⟩
      | false => exact hlater

/-- The labels that a record repeats are those that its replacement repeats. -/
theorem repeats_mapM (h : Separates f) {fields : TermFields Name} {others : TermFields Other}
    (hfields : Term.mapFieldsM f fields = some others) :
    (repeats fields).mapM (Spanned.mapM f) = some (repeats others) :=
  repeatsAfter_mapM h rfl (Term.labels_mapM hfields)

end Shape

/-! ## Free names and printed forms -/

namespace Operand

mutual
/-- The free names of an operand are replaced by those of its replacement. -/
theorem freeVars_mapM {operand : Operand Name} {other : Operand Other}
    (h : operand.mapM f = some other) : operand.freeVars.mapM f = some other.freeVars := by
  cases operand with
  | typeVar name =>
      obtain ⟨found, hname, rfl⟩ := mapM_typeVar_eq_some.1 h
      simp [freeVars, hname]
  | record fields =>
      obtain ⟨found, hfields, rfl⟩ := mapM_record_eq_some.1 h
      rw [freeVars, freeVars, fieldsFreeVars_mapM hfields]
  | _ =>
      cases h
      rfl

/-- The free names of fields are replaced by those of their replacements. -/
theorem fieldsFreeVars_mapM {fields : Fields Name} {others : Fields Other}
    (h : mapFieldsM f fields = some others) :
    (fieldsFreeVars fields).mapM f = some (fieldsFreeVars others) := by
  match fields with
  | [] =>
      cases h
      rfl
  | (label, type) :: rest =>
      obtain ⟨label', -, type', htype, rest', hrest, rfl⟩ := mapFieldsM_cons_eq_some.1 h
      rw [fieldsFreeVars, fieldsFreeVars, List.mapM_append, freeVars_mapM htype,
        fieldsFreeVars_mapM hrest]
      rfl
end

mutual
/-- An operand is printed as its replacement, where names are printed as what replaces them. -/
theorem textM_eq {f : Name → Option String} {operand : Operand Name} {other : Operand String}
    (h : operand.mapM f = some other) : operand.textM f = some other.text := by
  cases operand with
  | typeVar name =>
      obtain ⟨found, hname, rfl⟩ := mapM_typeVar_eq_some.1 h
      exact hname
  | record fields =>
      obtain ⟨found, hfields, rfl⟩ := mapM_record_eq_some.1 h
      rw [textM, fieldTextsM_eq hfields]
      rfl
  | _ =>
      cases h
      rfl

/-- Fields are printed as their replacements, where names are printed as what replaces them. -/
theorem fieldTextsM_eq {f : Name → Option String} {fields : Fields Name} {others : Fields String}
    (h : mapFieldsM f fields = some others) : fieldTextsM f fields = some (fieldTexts others) := by
  match fields with
  | [] =>
      cases h
      rfl
  | (label, type) :: rest =>
      obtain ⟨label', hlabel, type', htype, rest', hrest, rfl⟩ := mapFieldsM_cons_eq_some.1 h
      rw [fieldTextsM, hlabel, textM_eq htype, fieldTextsM_eq hrest]
      rfl
end

end Operand

namespace Shape

/-- The free names of a shape are replaced by those of its replacement. -/
theorem freeVars_mapM {shape : Shape Name} {other : Shape Other} (h : shape.mapM f = some other) :
    shape.freeVars.mapM f = some other.freeVars := by
  obtain ⟨operands⟩ := shape
  obtain ⟨others, hoperands, rfl⟩ := mapM_eq_some.1 h
  show (operands.flatMap Operand.freeVars).mapM f = some (others.flatMap Operand.freeVars)
  clear h
  induction operands generalizing others with
  | nil =>
      cases hoperands
      rfl
  | cons operand rest ih =>
      obtain ⟨operand', hoperand, rest', hrest, rfl⟩ := mapM_cons_eq_some.1 hoperands
      rw [List.flatMap_cons, List.flatMap_cons, List.mapM_append, Operand.freeVars_mapM hoperand,
        ih rest' hrest]
      rfl

/-- A shape is printed as its replacement, where names are printed as what replaces them. -/
theorem textM_eq {f : Name → Option String} {shape : Shape Name} {other : Shape String}
    (h : shape.mapM f = some other) : shape.textM f = some other.text := by
  obtain ⟨operands⟩ := shape
  obtain ⟨others, hoperands, rfl⟩ := mapM_eq_some.1 h
  have htexts : operands.mapM (Operand.textM f) = some (others.map Operand.text) := by
    clear h
    induction operands generalizing others with
    | nil =>
        cases hoperands
        rfl
    | cons operand rest ih =>
        obtain ⟨operand', hoperand, rest', hrest, rfl⟩ := mapM_cons_eq_some.1 hoperands
        exact mapM_cons_eq_some.2
          ⟨operand'.text, Operand.textM_eq hoperand, _, ih rest' hrest, rfl⟩
  rw [textM, htexts]
  rfl

end Shape

end ArrayShape
