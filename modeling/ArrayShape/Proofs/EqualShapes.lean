import ArrayShape.Shape.Catalogue
import Std.Data.HashMap.Lemmas

/-!
# Equal shapes

Shapes are equal when their operands correspond one by one, in variant and in contents
(`eq_iff_corresponds`). An element type is compared by its entry in the table of element types and
hashed by its name. Entries have different names, and a digest can be read back from the front
(`digest_append_inj`), so that shapes are equal exactly when they have the same digest. Equal shapes
therefore have equal hashes, and a catalogue finds the same positions as a search through the
shapes that were entered before (`Catalogue.Lists.enterAll`).
-/

namespace ArrayShape

/-- Two references to element types lead to one entry of the table of element types. -/
def DType.SameEntry (first second : DType) : Prop :=
  ∃ place : Nat, all[place]? = some first ∧ all[place]? = some second

/-- Element types are the same exactly when they are one entry of the table. -/
theorem DType.sameEntry_iff {first second : DType} : first.SameEntry second ↔ first = second := by
  constructor
  · intro h
    obtain ⟨place, hfirst, hsecond⟩ := h
    exact Option.some.inj (hfirst.symm.trans hsecond)
  · intro h
    obtain ⟨place, hplace⟩ := List.getElem?_of_mem (mem_all first)
    exact ⟨place, hplace, h ▸ hplace⟩

namespace Operand

variable {Name : Type}

/-! ## Correspondence -/

mutual
/-- Two operands are of one variant, and what they hold corresponds: integers and bounds by value,
names as they are, fields and values in order, and element types by their entry in the table. -/
inductive Corresponds : Operand Name → Operand Name → Prop
  | integer {first second : UInt64} (value : first.toNat = second.toNat) :
      Corresponds (.integer first) (.integer second)
  | typeVar {first second : Name} (name : first = second) :
      Corresponds (.typeVar first) (.typeVar second)
  | record {first second : Fields Name} (fields : FieldsCorrespond first second) :
      Corresponds (.record first) (.record second)
  | enum {first second : List UInt64} (values : first.map UInt64.toNat = second.map UInt64.toNat) :
      Corresponds (.enum first) (.enum second)
  | var {lower upper lower' upper' : UInt64} (lowers : lower.toNat = lower'.toNat)
      (uppers : upper.toNat = upper'.toNat) : Corresponds (.var lower upper) (.var lower' upper')
  | dtype {first second : DType} (entry : first.SameEntry second) :
      Corresponds (.dtype first) (.dtype second)

/-- Two lists of fields are equally long, and fields at one place have the same label and types
that correspond. -/
inductive FieldsCorrespond : Fields Name → Fields Name → Prop
  | nil : FieldsCorrespond [] []
  | cons {label label' : Name} {type type' : Operand Name} {rest rest' : Fields Name}
      (labels : label = label') (types : Corresponds type type')
      (others : FieldsCorrespond rest rest') :
      FieldsCorrespond ((label, type) :: rest) ((label', type') :: rest')
end

mutual
/-- Every operand corresponds to itself. -/
theorem Corresponds.refl (operand : Operand Name) : operand.Corresponds operand := by
  cases operand with
  | integer value => exact .integer rfl
  | typeVar name => exact .typeVar rfl
  | record fields => exact .record (FieldsCorrespond.refl fields)
  | enum values => exact .enum rfl
  | var lower upper => exact .var rfl rfl
  | dtype scalar => exact .dtype (DType.sameEntry_iff.2 rfl)

/-- Every list of fields corresponds to itself. -/
theorem FieldsCorrespond.refl (fields : Fields Name) : FieldsCorrespond fields fields := by
  match fields with
  | [] => exact .nil
  | (label, type) :: rest =>
      exact .cons rfl (Corresponds.refl type) (FieldsCorrespond.refl rest)
end

mutual
/-- Operands that correspond are equal. -/
theorem Corresponds.eq {first second : Operand Name} (h : first.Corresponds second) :
    first = second := by
  cases h with
  | integer value => rw [UInt64.toNat_inj.1 value]
  | typeVar name => rw [name]
  | record fields => rw [fields.eq]
  | enum values => rw [(List.map_inj_right fun _ _ => UInt64.toNat_inj.1).1 values]
  | var lowers uppers => rw [UInt64.toNat_inj.1 lowers, UInt64.toNat_inj.1 uppers]
  | dtype entry => rw [DType.sameEntry_iff.1 entry]

/-- Fields that correspond are equal. -/
theorem FieldsCorrespond.eq {first second : Fields Name} (h : FieldsCorrespond first second) :
    first = second := by
  cases h with
  | nil => rfl
  | cons labels types others => rw [labels, types.eq, others.eq]
end

/-- Operands are equal exactly when they correspond. -/
theorem eq_iff_corresponds {first second : Operand Name} :
    first = second ↔ first.Corresponds second :=
  ⟨fun h => h ▸ Corresponds.refl first, Corresponds.eq⟩

/-! ## Digests -/

/-- Words in front of other data can be told from these data by their number. -/
theorem words_append_inj {first second : List UInt64} {rest others : List (Datum Name)}
    (hlength : first.length = second.length)
    (h : first.map .word ++ rest = second.map .word ++ others) :
    first = second ∧ rest = others := by
  obtain ⟨hwords, hrest⟩ := List.append_inj h (by simpa using hlength)
  exact ⟨(List.map_inj_right fun _ _ => Datum.word.inj).1 hwords, hrest⟩

mutual
/-- The digest of an operand in front of other data tells the operand and these data. -/
theorem digest_append_inj {first second : Operand Name} {rest others : List (Datum Name)}
    (h : first.digest ++ rest = second.digest ++ others) : first = second ∧ rest = others := by
  cases first with
  | integer value =>
      cases second with
      | integer other => simpa [digest] using h
      | _ => simp [digest] at h
  | typeVar name =>
      cases second with
      | typeVar other => simpa [digest] using h
      | _ => simp [digest] at h
  | record fields =>
      cases second with
      | record others =>
          simp only [digest, List.cons_append, List.cons.injEq, Datum.length.injEq] at h
          obtain ⟨-, hlength, hfields⟩ := h
          obtain ⟨rfl, hrest⟩ := fieldsDigest_append_inj hlength hfields
          exact ⟨rfl, hrest⟩
      | _ => simp [digest] at h
  | enum values =>
      cases second with
      | enum others =>
          simp only [digest, List.cons_append, List.cons.injEq, Datum.length.injEq] at h
          obtain ⟨-, hlength, hvalues⟩ := h
          obtain ⟨rfl, hrest⟩ := words_append_inj hlength hvalues
          exact ⟨rfl, hrest⟩
      | _ => simp [digest] at h
  | var lower upper =>
      cases second with
      | var lower' upper' => simpa [digest, and_assoc] using h
      | _ => simp [digest] at h
  | dtype scalar =>
      cases second with
      | dtype other =>
          simp only [digest, List.cons_append, List.nil_append, List.cons.injEq,
            Datum.text.injEq] at h
          obtain ⟨-, hname, hrest⟩ := h
          -- The digest holds the name alone, and no other entry has that name.
          exact ⟨by rw [DType.name_injective hname], hrest⟩
      | _ => simp [digest] at h

/-- The digest of as many fields in front of other data tells the fields and these data. -/
theorem fieldsDigest_append_inj {first second : Fields Name} {rest others : List (Datum Name)}
    (hlength : first.length = second.length)
    (h : fieldsDigest first ++ rest = fieldsDigest second ++ others) :
    first = second ∧ rest = others := by
  match first, second with
  | [], [] => exact ⟨rfl, by simpa [fieldsDigest] using h⟩
  | (label, type) :: fields, (label', type') :: fields' =>
      simp only [fieldsDigest, List.cons_append, List.append_assoc, List.cons.injEq,
        Datum.name.injEq] at h
      obtain ⟨rfl, htypes⟩ := h
      obtain ⟨rfl, hfields⟩ := digest_append_inj htypes
      obtain ⟨rfl, hrest⟩ := fieldsDigest_append_inj (Nat.succ.inj hlength) hfields
      exact ⟨rfl, hrest⟩
end

end Operand

namespace Shape

variable {Name : Type}

/-- Two shapes have equally many operands, and operands at one place correspond. -/
structure Corresponds (first second : Shape Name) : Prop where
  length_eq : first.operands.length = second.operands.length
  operands : ∀ (place : Nat) (operand other : Operand Name), first.operands[place]? = some operand →
    second.operands[place]? = some other → operand.Corresponds other

/-- Shapes are equal exactly when they correspond. -/
theorem eq_iff_corresponds {first second : Shape Name} :
    first = second ↔ first.Corresponds second := by
  constructor
  · intro h
    subst h
    refine ⟨rfl, fun place operand other hoperand hother => ?_⟩
    rw [← Operand.eq_iff_corresponds]
    exact Option.some.inj (hoperand.symm.trans hother)
  · intro h
    rw [Shape.mk.injEq]
    refine List.ext_getElem h.length_eq fun place hfirst hsecond => ?_
    rw [Operand.eq_iff_corresponds]
    exact h.operands place _ _ (List.getElem?_eq_getElem hfirst) (List.getElem?_eq_getElem hsecond)

/-- The digests of as many operands tell the operands. -/
theorem flatMap_digest_inj {first second : List (Operand Name)}
    (hlength : first.length = second.length)
    (h : first.flatMap Operand.digest = second.flatMap Operand.digest) : first = second := by
  induction first generalizing second with
  | nil => exact (List.length_eq_zero_iff.1 hlength.symm).symm
  | cons operand rest ih =>
      cases second with
      | nil => cases hlength
      | cons other others =>
          rw [List.flatMap_cons, List.flatMap_cons] at h
          obtain ⟨rfl, hrest⟩ := Operand.digest_append_inj h
          rw [ih (Nat.succ.inj hlength) hrest]

/-- Shapes are equal exactly when they have the same digest. -/
theorem eq_iff_digest_eq {first second : Shape Name} :
    first = second ↔ first.digest = second.digest := by
  constructor
  · exact congrArg digest
  · intro h
    simp only [digest, List.cons.injEq, Datum.length.injEq] at h
    exact congrArg Shape.mk (flatMap_digest_inj h.1 h.2)

/-! ## First positions -/

section Search

variable [DecidableEq Name]

/-- Behind other entries, a further entry is found if none of them is. -/
theorem firstPosition?_concat (entries : List (Nat × Shape Name)) (position : Nat)
    (entered shape : Shape Name) :
    firstPosition? (entries ++ [(position, entered)]) shape =
      (firstPosition? entries shape).or (if entered == shape then some position else none) := by
  rw [firstPosition?, firstPosition?, List.find?_append, Option.map_or]
  congr 1
  cases hequal : entered == shape <;> simp [hequal]

/-- Where a shape is found first is not changed by further entries. -/
theorem firstPosition?_append {entries : List (Nat × Shape Name)} {shape : Shape Name} {first : Nat}
    (h : firstPosition? entries shape = some first) (rest : List (Nat × Shape Name)) :
    firstPosition? (entries ++ rest) shape = some first := by
  rw [firstPosition?] at h
  rw [firstPosition?, List.find?_append, Option.map_or, h]
  rfl

end Search

section Catalogue

variable [DecidableEq Name] [Hashable Name]

/-- Equal shapes have equal hashes, since their digests are the same. -/
instance : LawfulHashable (Shape Name) where
  hash_eq first second h := by
    have hdigest : first.digest = second.digest := eq_iff_digest_eq.1 (eq_of_beq h)
    show hash first.digest = hash second.digest
    rw [hdigest]

/-- A catalogue finds each shape where a search through the entries finds it. -/
def Catalogue.Lists (catalogue : Catalogue Name) (entries : List (Nat × Shape Name)) : Prop :=
  ∀ shape, catalogue[shape]? = firstPosition? entries shape

/-- Entering a shape answers with the first position of an equal shape, and adds the entry. -/
theorem Catalogue.Lists.enter {catalogue : Catalogue Name} {entries : List (Nat × Shape Name)}
    (h : catalogue.Lists entries) (shape : Shape Name) (position : Nat) :
    some (catalogue.enter shape position).1 =
        firstPosition? (entries ++ [(position, shape)]) shape ∧
      (catalogue.enter shape position).2.Lists (entries ++ [(position, shape)]) := by
  have hshape := h shape
  unfold Catalogue.enter
  cases hfound : catalogue[shape]? with
  | some first =>
      rw [hfound] at hshape
      refine ⟨by rw [firstPosition?_concat, ← hshape]; rfl, fun other => ?_⟩
      rw [firstPosition?_concat, h other]
      by_cases hequal : shape == other
      · rw [← eq_of_beq hequal, ← hshape]
        rfl
      · rw [if_neg hequal, Option.or_none]
  | none =>
      rw [hfound] at hshape
      refine ⟨by rw [firstPosition?_concat, ← hshape, if_pos (BEq.refl shape)]; rfl,
        fun other => ?_⟩
      rw [firstPosition?_concat, Std.HashMap.getElem?_insert, h other]
      by_cases hequal : shape == other
      · rw [if_pos hequal, if_pos hequal, ← eq_of_beq hequal, ← hshape]
        rfl
      · rw [if_neg hequal, if_neg hequal, Option.or_none]

/-- Entering shapes answers with their first positions. -/
theorem Catalogue.Lists.enterAll {catalogue : Catalogue Name}
    {entries : List (Nat × Shape Name)} (h : catalogue.Lists entries)
    (rest : List (Nat × Shape Name)) :
    (catalogue.enterAll rest).map some =
      rest.map fun entry => firstPosition? (entries ++ rest) entry.2 := by
  induction rest generalizing catalogue entries with
  | nil => rfl
  | cons entry rest ih =>
      obtain ⟨position, shape⟩ := entry
      obtain ⟨hanswer, hentered⟩ := h.enter shape position
      have hfirst := firstPosition?_append hanswer.symm rest
      have hrest := ih hentered
      rw [List.append_assoc, List.singleton_append] at hfirst hrest
      rw [Catalogue.enterAll, List.map_cons, List.map_cons, hrest, ← hfirst]

/-- Equality of shapes is an equivalence. Shapes are equal exactly when they have as many operands
and operands at one place correspond, and exactly when they have the same digest, so that hashers
are fed the same data. A catalogue answers each shape of a list with the position where a search by
equality finds the first shape of the list that is equal to it. -/
theorem equality_laws (Name : Type) [DecidableEq Name] [Hashable Name] :
    (Equivalence fun first second : Shape Name => (first == second) = true) ∧
    (∀ first second : Shape Name, (first == second) = true ↔ first.Corresponds second) ∧
    (∀ first second : Shape Name, (first == second) = true ↔ first.digest = second.digest) ∧
    ∀ entries : List (Nat × Shape Name),
      (Catalogue.enterAll {} entries).map some =
        entries.map fun entry => firstPosition? entries entry.2 := by
  refine ⟨⟨BEq.refl, BEq.symm, BEq.trans⟩, fun first second => ?_, fun first second => ?_,
    fun entries => ?_⟩
  · rw [beq_iff_eq, eq_iff_corresponds]
  · rw [beq_iff_eq, eq_iff_digest_eq]
  · have hempty : Catalogue.Lists ({} : Catalogue Name) [] :=
      fun shape => Std.HashMap.getElem?_empty
    exact hempty.enterAll entries

end Catalogue

end Shape

end ArrayShape
