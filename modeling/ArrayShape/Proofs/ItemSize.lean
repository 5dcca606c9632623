import ArrayShape.Proofs.Leaves
import ArrayShape.Proofs.Scanning
import ArrayShape.Session.Basic

/-!
# Sizes of elements

An operand has a packed size if its leaves are all element types, and the size is the sum of theirs
(`itemSize?_eq_some_iff`). `Operand.sizeUpTo` adds up the size with a limit on every sum, as words
do: a record adds the sizes of its fields to zero from left to right, has no size from the first
field on that has none, and fails at a sum above the limit. Where it does not fail it gives the
packed size (`itemSize?_of_sizeUpTo`), and it does not fail if all the element types in the operand
keep to the limit together (`exists_sizeUpTo`).

In a text, an element type is at most twice as wide as the name that it is written as, and so are
the fields of a composite type together. The names of a text stand in different places of it. The
element types of a shape that was read from a text are therefore at most twice as wide as the text
(`totalSize_scalars_le`), and no sum on the way to the size is larger (`itemSize_bounded`).
-/

namespace ArrayShape

variable {Name : Type}

/-! ## Sizes and leaves -/

namespace DType

/-- The size of values one behind another. -/
def totalSize : List DType → Nat
  | [] => 0
  | scalar :: rest => scalar.size + totalSize rest

@[simp] theorem totalSize_append (first second : List DType) :
    totalSize (first ++ second) = totalSize first + totalSize second := by
  induction first with
  | nil => simp [totalSize]
  | cons scalar rest ih => simp [totalSize, ih, Nat.add_assoc]

/-- The order of values does not matter for their size. -/
theorem totalSize_of_perm {first second : List DType} (h : first.Perm second) :
    totalSize first = totalSize second := by
  induction h with
  | nil => rfl
  | cons scalar _ ih => rw [totalSize, totalSize, ih]
  | swap first second rest =>
      simp only [totalSize]
      omega
  | trans _ _ ihfirst ihsecond => exact ihfirst.trans ihsecond

end DType

namespace Operand

open DType (totalSize)

/-- The element type that an operand is, and nothing for any other operand. -/
def scalar? : Operand Name → Option DType
  | .dtype scalar => some scalar
  | .integer _ | .typeVar _ | .record _ | .enum _ | .var _ _ => none

/-- The element types among the leaves of an operand. -/
def scalars (operand : Operand Name) : List DType :=
  operand.leaves.filterMap scalar?

/-- The element types among the leaves of the types of fields. -/
def fieldsScalars (fields : Fields Name) : List DType :=
  (fieldsLeaves fields).filterMap scalar?

@[simp] theorem totalSize_fieldsScalars_cons (label : Name) (type : Operand Name)
    (rest : Fields Name) :
    totalSize (fieldsScalars ((label, type) :: rest)) =
      totalSize type.scalars + totalSize (fieldsScalars rest) := by
  rw [fieldsScalars, fieldsLeaves, List.filterMap_append, DType.totalSize_append, scalars,
    fieldsScalars]

/-- All the leaves of an operand are element types. -/
def isPacked (operand : Operand Name) : Bool :=
  operand.leaves.all (·.scalar?.isSome)

mutual
/-- An operand has a size exactly if all its leaves are element types. It is the sum of theirs. -/
theorem itemSize?_eq (operand : Operand Name) :
    operand.itemSize? = if operand.isPacked then some (totalSize operand.scalars) else none := by
  cases operand with
  | record fields => exact fieldsSize?_eq fields
  | _ => simp [itemSize?, isPacked, leaves, scalar?, scalars, totalSize]

/-- Fields have a size exactly if all the leaves of their types are element types. -/
theorem fieldsSize?_eq (fields : Fields Name) :
    fieldsSize? fields =
      if (fieldsLeaves fields).all (·.scalar?.isSome) then some (totalSize (fieldsScalars fields))
      else none := by
  match fields with
  | [] => rfl
  | (label, type) :: rest =>
      rw [fieldsSize?, itemSize?_eq type, fieldsSize?_eq rest, fieldsLeaves, List.all_append,
        ← isPacked]
      cases type.isPacked <;> cases (fieldsLeaves rest).all (·.scalar?.isSome) <;> simp
end

/-- The operands with element types as leaves are the element types and the records of such. -/
theorem isPacked_iff {operand : Operand Name} :
    operand.isPacked = true ↔
      (∃ scalar, operand = .dtype scalar) ∨
        ∃ fields, operand = .record fields ∧
          ∀ leaf ∈ fieldsLeaves fields, ∃ scalar, leaf = .dtype scalar := by
  have hscalar (leaf : Operand Name) :
      leaf.scalar?.isSome = true ↔ ∃ scalar, leaf = .dtype scalar := by
    cases leaf <;> simp [scalar?]
  cases operand with
  | record fields => simp [isPacked, leaves, hscalar]
  | _ => simp [isPacked, leaves, hscalar]

/-- Where an operand has a size, it is the sum of the sizes of the element types in it. -/
theorem itemSize?_eq_some_iff {operand : Operand Name} {size : Nat} :
    operand.itemSize? = some size ↔
      operand.isPacked = true ∧ size = totalSize operand.scalars := by
  rw [itemSize?_eq, Option.ite_none_right_eq_some, Option.some.injEq, eq_comm (a := size)]

/-- The nesting of records, the order of fields and their labels do not matter for the size. -/
theorem itemSize?_of_perm {first second : Operand Name} (h : first.leaves.Perm second.leaves) :
    first.itemSize? = second.itemSize? := by
  have hpacked : first.isPacked = second.isPacked := h.all_eq
  have htotal : totalSize first.scalars = totalSize second.scalars :=
    DType.totalSize_of_perm (h.filterMap scalar?)
  rw [itemSize?_eq, itemSize?_eq, hpacked, htotal]

/-! ## Sums with a limit -/

mutual
/-- The packed size of an operand, computed by sums that must not exceed a limit. The first sum
above the limit is the error. -/
def sizeUpTo (limit : Nat) : Operand Name → Except Nat (Option Nat)
  | .dtype scalar => .ok (some scalar.size)
  | .record fields => fieldsSizeUpTo limit 0 fields
  | .integer _ | .typeVar _ | .enum _ | .var _ _ => .ok none

/-- A total with the sizes of fields added to it from left to right, up to the first field that has
no size. -/
def fieldsSizeUpTo (limit total : Nat) : Fields Name → Except Nat (Option Nat)
  | [] => .ok (some total)
  | (_, type) :: rest =>
    match type.sizeUpTo limit with
    | .error sum => .error sum
    | .ok none => .ok none
    | .ok (some size) =>
      if total + size ≤ limit then fieldsSizeUpTo limit (total + size) rest
      else .error (total + size)
end

mutual
/-- Sums that keep to the limit give the packed size. -/
theorem itemSize?_of_sizeUpTo {limit : Nat} {operand : Operand Name} {found : Option Nat}
    (h : operand.sizeUpTo limit = .ok found) : found = operand.itemSize? := by
  cases operand with
  | record fields =>
      rw [sizeUpTo] at h
      rw [fieldsSize?_of_fieldsSizeUpTo h, itemSize?]
      simp
  | _ =>
      cases h
      rfl

/-- Sums that keep to the limit give the total with the sizes of all fields. -/
theorem fieldsSize?_of_fieldsSizeUpTo {limit total : Nat} {fields : Fields Name}
    {found : Option Nat} (h : fieldsSizeUpTo limit total fields = .ok found) :
    found = (fieldsSize? fields).map (total + ·) := by
  match fields with
  | [] =>
      cases h
      rfl
  | (label, type) :: rest =>
      rw [fieldsSizeUpTo] at h
      rw [fieldsSize?]
      split at h
      · cases h
      · next hnone =>
          cases h
          rw [← itemSize?_of_sizeUpTo hnone]
          rfl
      · next size hsize =>
          rw [← itemSize?_of_sizeUpTo hsize]
          split at h
          · rw [fieldsSize?_of_fieldsSizeUpTo h]
            cases fieldsSize? rest <;> simp [Nat.add_assoc]
          · cases h
end

mutual
/-- A sum that fails is above the limit. -/
theorem lt_of_sizeUpTo_error {limit sum : Nat} {operand : Operand Name}
    (h : operand.sizeUpTo limit = .error sum) : limit < sum := by
  cases operand with
  | record fields => exact lt_of_fieldsSizeUpTo_error h
  | _ => cases h

/-- A sum that fails among fields is above the limit. -/
theorem lt_of_fieldsSizeUpTo_error {limit total sum : Nat} {fields : Fields Name}
    (h : fieldsSizeUpTo limit total fields = .error sum) : limit < sum := by
  match fields with
  | [] => cases h
  | (label, type) :: rest =>
      rw [fieldsSizeUpTo] at h
      split at h
      · next hsum =>
          cases h
          exact lt_of_sizeUpTo_error hsum
      · cases h
      · split at h
        · exact lt_of_fieldsSizeUpTo_error h
        · next hlt =>
            cases h
            exact Nat.lt_of_not_le hlt
end

mutual
/-- No sum exceeds a limit that all the element types in an operand keep together. -/
theorem exists_sizeUpTo {limit : Nat} (operand : Operand Name)
    (h : totalSize operand.scalars ≤ limit) : ∃ found, operand.sizeUpTo limit = .ok found := by
  cases operand with
  | record fields =>
      rw [← Nat.zero_add (totalSize _)] at h
      exact exists_fieldsSizeUpTo fields h
  | _ => exact ⟨_, rfl⟩

/-- No sum exceeds a limit that a total and all the element types in fields keep together. -/
theorem exists_fieldsSizeUpTo {limit total : Nat} (fields : Fields Name)
    (h : total + totalSize (fieldsScalars fields) ≤ limit) :
    ∃ found, fieldsSizeUpTo limit total fields = .ok found := by
  match fields with
  | [] => exact ⟨_, rfl⟩
  | (label, type) :: rest =>
      rw [totalSize_fieldsScalars_cons] at h
      have htype : totalSize type.scalars ≤ limit := by omega
      obtain ⟨found, hfound⟩ := exists_sizeUpTo type htype
      rw [fieldsSizeUpTo, hfound]
      cases found with
      | none => exact ⟨none, rfl⟩
      | some size =>
          -- The size is that of the element types in the field, so the other fields have room left.
          have hsize : size = totalSize type.scalars :=
            (itemSize?_eq_some_iff.1 (itemSize?_of_sizeUpTo hfound).symm).2
          simp only
          rw [if_pos (by omega)]
          exact exists_fieldsSizeUpTo rest (by omega)
end

/-! ## Sizes and names -/

/-- The element types of an operand are those among its named leaves. -/
theorem scalars_eq_namedLeaves (operand : Operand Name) :
    operand.scalars = operand.namedLeaves.filterMap scalar? := by
  rw [filterMap_namedLeaves fun leaf hleaf => by cases leaf <;> cases hleaf <;> rfl, scalars]

/-- The element types in what a name stands for are at most twice as wide as the name. -/
theorem totalSize_scalars_ofName (text : String) :
    totalSize (ofName text).scalars ≤ 2 * Text.byteLength text.toList := by
  have hentries : ∀ entry ∈ DType.entries,
      entry.2.size ≤ 2 * Text.byteLength entry.1.toList := by decide
  have hnamed : ∀ entry ∈ named,
      totalSize entry.2.scalars ≤ 2 * Text.byteLength entry.1.toList := by decide
  unfold ofName
  cases hscalar : DType.ofName? text with
  | some scalar =>
      obtain ⟨before, after, hmem, -⟩ := List.lookup_eq_some_iff.1 hscalar
      exact hentries (text, scalar) (by simp [hmem])
  | none =>
      cases htype : ofTypeName? text with
      | some type => exact hnamed (text, type) (mem_named htype)
      | none => exact Nat.zero_le _

/-- What names stand for is together at most twice as wide as the names. -/
theorem totalSize_scalars_names (names : List String) :
    totalSize (names.flatMap fun name => (ofName name).scalars) ≤
      2 * Text.byteLength (names.flatMap String.toList) := by
  induction names with
  | nil => exact Nat.zero_le _
  | cons name rest ih =>
      have hname := totalSize_scalars_ofName name
      rw [List.flatMap_cons, List.flatMap_cons, DType.totalSize_append, Text.byteLength_append]
      omega

end Operand

namespace Text

/-- Characters among others take no more bytes than these. -/
theorem byteLength_le_of_sublist {first second : List Char} (h : first.Sublist second) :
    byteLength first ≤ byteLength second := by
  induction h with
  | slnil => exact Nat.le_refl _
  | cons c _ ih => exact Nat.le_trans ih (Nat.le_add_left _ _)
  | cons_cons c _ ih => exact Nat.add_le_add_left ih _

end Text

namespace Token

/-- The characters of tokens, one token after another. -/
def chars (tokens : List Token) : List Char :=
  tokens.flatMap fun token => token.text.toList

/-- The operand names of tokens stand in different places among their characters. -/
theorem operandNames_sublist (tokens : List Token) :
    ((operandNames tokens).flatMap String.toList).Sublist (chars tokens) := by
  induction tokens with
  | nil => exact .slnil
  | cons token rest ih =>
      rw [chars, List.flatMap_cons]
      cases token with
      | name text =>
          rw [operandNames]
          split
          · exact ih.trans (List.sublist_append_right _ _)
          · rw [List.flatMap_cons]
            exact (List.Sublist.refl _).append ih
      | _ => exact ih.trans (List.sublist_append_right _ _)

end Token

/-- The tokens of characters stand in different places among them. -/
theorem Lexer.Scan.chars_sublist {offset : Nat} {chars : List Char} {items : List Lexeme}
    (h : Scan offset chars items) :
    (Token.chars (items.filterMap Lexeme.token?)).Sublist chars := by
  induction h with
  | done => exact .slnil
  | blank _ _ ih => exact ih.cons _
  | item htakes _ ih =>
      cases htakes with
      | token _ _ => exact (List.Sublist.refl _).append ih
      | stray _ _ => exact ih.cons _

/-- The operand names of a text together take no more bytes than the text. -/
theorem Token.byteLength_operandNames_le (source : String) :
    Text.byteLength ((operandNames (ofText source)).flatMap String.toList) ≤
      source.utf8ByteSize := by
  have hscan := Lexer.scan_lexemesFrom 0 source.toList
  rw [← Text.byteLength_toList]
  exact Text.byteLength_le_of_sublist ((operandNames_sublist _).trans hscan.chars_sublist)

namespace Shape

open DType (totalSize)
open Operand (scalars)

variable {options : Options} {source : String} {shape : Shape String}

/-- The element types of a shape that was read from a text are together at most twice as wide as the
text. -/
theorem totalSize_scalars_le (h : parse options source = .ok shape) :
    totalSize (shape.operands.flatMap scalars) ≤ 2 * source.utf8ByteSize := by
  have hscalars : shape.operands.flatMap scalars =
      (Token.operandNames (Token.ofText source)).flatMap
        fun name => (Operand.ofName name).scalars := by
    have hleaves := congrArg (List.filterMap Operand.scalar?) (namedLeaves_of_parse h)
    simpa only [List.filterMap_flatMap, ← Operand.scalars_eq_namedLeaves] using hleaves
  have hnames := Token.byteLength_operandNames_le source
  have htotal := Operand.totalSize_scalars_names (Token.operandNames (Token.ofText source))
  rw [hscalars]
  omega

/-- The packed size of the elements of a shape, computed by sums that must not exceed a limit. -/
def itemSizeUpTo (limit : Nat) (shape : Shape String) : Except Nat (Option Nat) :=
  match shape.measure? with
  | none => .ok none
  | some measure => measure.sizeUpTo limit

/-- How the leaves of the measure tell the size of the elements of a shape. -/
structure SizedByLeaves (shape : Shape String) : Prop where
  /-- There is a size exactly if the measure is an element type, or a record whose leaves are all
  element types, and it is the sum of the sizes of the leaves. -/
  eq_some_iff (size : Nat) : shape.itemSize? = some size ↔
    ∃ measure, shape.measure? = some measure ∧
      ((∃ scalar, measure = .dtype scalar) ∨
        ∃ fields, measure = .record fields ∧
          ∀ leaf ∈ Operand.fieldsLeaves fields, ∃ scalar, leaf = .dtype scalar) ∧
      size = totalSize measure.scalars
  /-- Sums that keep to a limit give the size, or nothing where there is none. -/
  of_sums (limit : Nat) (found : Option Nat) :
    shape.itemSizeUpTo limit = .ok found → found = shape.itemSize?
  /-- A sum fails only above the limit. -/
  of_error (limit sum : Nat) : shape.itemSizeUpTo limit = .error sum → limit < sum
  /-- Only the leaves count, in any order: neither how records are nested nor the labels do. -/
  of_perm (other : Shape String) (measure second : Operand String) :
    shape.measure? = some measure → other.measure? = some second →
      measure.leaves.Perm second.leaves → shape.itemSize? = other.itemSize?
  /-- The size of a record without leaves is zero. -/
  of_no_leaves (fields : Fields String) :
    shape.measure? = some (.record fields) → Operand.fieldsLeaves fields = [] →
      shape.itemSize? = some 0

/-- The sums on the way to the size of the elements of a shape are bounded by the text that it was
read from. -/
structure SumsWithin (source : String) (shape : Shape String) : Prop where
  /-- No sum is more than twice as large as the text. -/
  sums : shape.itemSizeUpTo (2 * source.utf8ByteSize) = .ok shape.itemSize?
  /-- The size is at most twice as large as the text. -/
  size_le (size : Nat) : shape.itemSize? = some size → size ≤ 2 * source.utf8ByteSize
  /-- Every sum fits in a 64-bit word, if the text is not too long to be read. -/
  word : source.utf8ByteSize ≤ maxSourceSize →
    shape.itemSizeUpTo (UInt64.size - 1) = .ok shape.itemSize?

/-- The size of the elements of every shape is told by the leaves. -/
theorem sizedByLeaves (shape : Shape String) : shape.SizedByLeaves where
  eq_some_iff size := by
    simp only [itemSize?, Option.bind_eq_some_iff, Operand.itemSize?_eq_some_iff,
      Operand.isPacked_iff]
  of_sums limit found h := by
    unfold itemSizeUpTo at h
    unfold itemSize?
    cases hmeasure : shape.measure? with
    | none =>
        rw [hmeasure] at h
        cases h
        rfl
    | some measure =>
        rw [hmeasure] at h
        exact Operand.itemSize?_of_sizeUpTo h
  of_error limit sum h := by
    unfold itemSizeUpTo at h
    split at h
    · cases h
    · exact Operand.lt_of_sizeUpTo_error h
  of_perm other measure second hmeasure hsecond hperm := by
    simp only [itemSize?, hmeasure, hsecond, Option.bind_some, Operand.itemSize?_of_perm hperm]
  of_no_leaves fields hmeasure hleaves := by
    simp [itemSize?, hmeasure, Operand.itemSize?_eq, Operand.isPacked, scalars, Operand.leaves,
      hleaves, totalSize]

/-- The element types of the measure are among those of the shape. -/
theorem totalSize_measure_le {measure : Operand String} (h : shape.measure? = some measure) :
    totalSize measure.scalars ≤ totalSize (shape.operands.flatMap scalars) := by
  obtain ⟨dims, hdims⟩ := List.getLast?_eq_some_iff.1 h
  rw [hdims, List.flatMap_append, List.flatMap_singleton, DType.totalSize_append]
  exact Nat.le_add_left _ _

/-- Under a limit that the element types of a shape keep together, the sums give the size. -/
theorem itemSizeUpTo_of_le {limit : Nat} (h : totalSize (shape.operands.flatMap scalars) ≤ limit) :
    shape.itemSizeUpTo limit = .ok shape.itemSize? := by
  have hsums : ∃ found, shape.itemSizeUpTo limit = .ok found := by
    unfold itemSizeUpTo
    split
    · exact ⟨none, rfl⟩
    · next measure hmeasure =>
        exact Operand.exists_sizeUpTo measure (Nat.le_trans (totalSize_measure_le hmeasure) h)
  obtain ⟨found, hfound⟩ := hsums
  rw [hfound, shape.sizedByLeaves.of_sums limit found hfound]

/-- The sums are bounded by every text that the shape is read from. -/
theorem sumsWithin_of_parse (h : parse options source = .ok shape) : shape.SumsWithin source where
  sums := itemSizeUpTo_of_le (totalSize_scalars_le h)
  size_le size hsize := by
    obtain ⟨measure, hmeasure, -, rfl⟩ := (shape.sizedByLeaves.eq_some_iff size).1 hsize
    exact Nat.le_trans (totalSize_measure_le hmeasure) (totalSize_scalars_le h)
  word hsource := by
    have htotal := totalSize_scalars_le h
    have hword : 2 * maxSourceSize ≤ UInt64.size - 1 := by decide
    exact itemSizeUpTo_of_le (by omega)

/-- The size of the elements of a shape is the sum of the sizes of the leaves of its measure, if
these are element types. For a shape that was read from a text, neither the size nor any sum on the
way to it is more than twice as large as the text, so that 64-bit words hold them. -/
theorem itemSize_bounded (shape : Shape String) :
    shape.SizedByLeaves ∧
      ∀ options source, parse options source = .ok shape → shape.SumsWithin source :=
  ⟨shape.sizedByLeaves, fun _ _ => sumsWithin_of_parse⟩

/-- A record in a record, with a composite type that has a name, an alias and the widest type. -/
theorem itemSize_bounded_nested :
    parse {} "M, Record(a=Record(x=RGBA, y=int), z=complex128)" =
        .ok ⟨[.typeVar "M", .record [("a", .record [("x", Operand.ofName "RGBA"),
          ("y", .dtype .int32)]), ("z", .dtype .complex128)]]⟩ ∧
      itemSizeUpTo 96 ⟨[.typeVar "M", .record [("a", .record [("x", Operand.ofName "RGBA"),
        ("y", .dtype .int32)]), ("z", .dtype .complex128)]]⟩ = .ok (some 27) := by
  have hread : parse {} "M, Record(a=Record(x=RGBA, y=int), z=complex128)" =
      .ok ⟨[.typeVar "M", .record [("a", .record [("x", Operand.ofName "RGBA"),
        ("y", .dtype .int32)]), ("z", .dtype .complex128)]]⟩ :=
    parse_eq_ok_of_items rfl (by decide +kernel)
  exact ⟨hread, ((itemSize_bounded _).2 _ _ hread).sums⟩

end Shape

end ArrayShape
