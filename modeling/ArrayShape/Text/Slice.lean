import ArrayShape.ByteRange

/-!
# Parts of a text

Offsets into a text count the bytes of its UTF-8 form, in which a character takes from one to four
bytes. An offset may therefore fall inside a character. `splitAt?` cuts characters at an offset, and
`slice?` gives the part of a text that a range marks: both fail for an offset that falls inside a
character or behind the text. `splitAt?_eq_some_iff` and `slice?_eq_some_iff` say where they
succeed.
-/

namespace ArrayShape

namespace Text

/-- The number of bytes in the UTF-8 form of characters. -/
def byteLength (chars : List Char) : Nat :=
  chars.foldr (fun c length => c.utf8Size + length) 0

@[simp] theorem byteLength_nil : byteLength [] = 0 := rfl

@[simp] theorem byteLength_cons (c : Char) (rest : List Char) :
    byteLength (c :: rest) = c.utf8Size + byteLength rest := rfl

@[simp] theorem byteLength_append (first second : List Char) :
    byteLength (first ++ second) = byteLength first + byteLength second := by
  induction first with
  | nil => simp
  | cons c rest ih => simp [ih, Nat.add_assoc]

/-- Only no characters take no byte. -/
theorem byteLength_pos {chars : List Char} (h : chars ≠ []) : 0 < byteLength chars := by
  cases chars with
  | nil => exact absurd rfl h
  | cons c rest =>
      have hc := c.utf8Size_pos
      rw [byteLength_cons]
      omega

/-- The bytes of a text are those of its characters. -/
theorem byteLength_ofList (chars : List Char) :
    (String.ofList chars).utf8ByteSize = byteLength chars := by
  induction chars with
  | nil => rfl
  | cons c rest ih =>
      rw [String.ofList_cons, String.utf8ByteSize_append, String.utf8ByteSize_singleton, ih,
        byteLength_cons]

/-- The bytes of the characters of a text are those of the text. -/
theorem byteLength_toList (text : String) : byteLength text.toList = text.utf8ByteSize := by
  rw [← byteLength_ofList, String.ofList_toList]

/-- Of two beginnings of the same characters, the one with fewer bytes begins the other. -/
theorem append_eq_append_of_byteLength_le {first second rest other : List Char}
    (h : first ++ rest = second ++ other) (hle : byteLength first ≤ byteLength second) :
    ∃ more, second = first ++ more ∧ rest = more ++ other := by
  obtain ⟨more, hsecond, hrest⟩ | ⟨more, rfl, rfl⟩ := List.append_eq_append_iff.1 h
  · exact ⟨more, hsecond, hrest⟩
  · cases more with
    | nil => exact ⟨[], by simp, by simp⟩
    | cons c more =>
        have hpos := byteLength_pos (List.cons_ne_nil c more)
        rw [byteLength_append] at hle
        omega

/-- Two beginnings of the same characters with the same number of bytes are the same. -/
theorem append_inj_of_byteLength {first second rest other : List Char}
    (h : first ++ rest = second ++ other) (hlength : byteLength first = byteLength second) :
    first = second ∧ rest = other := by
  obtain ⟨more, rfl, rfl⟩ := append_eq_append_of_byteLength_le h (Nat.le_of_eq hlength)
  cases more with
  | nil => exact ⟨by simp, by simp⟩
  | cons c more =>
      have hpos := byteLength_pos (List.cons_ne_nil c more)
      rw [byteLength_append] at hlength
      omega

/-- Cuts characters at a byte offset, if one of them begins or the last of them ends there. -/
def splitAt? : List Char → Nat → Option (List Char × List Char)
  | chars, 0 => some ([], chars)
  | [], _ + 1 => none
  | c :: rest, position + 1 =>
    if c.utf8Size ≤ position + 1 then
      (splitAt? rest (position + 1 - c.utf8Size)).map fun (before, behind) => (c :: before, behind)
    else none

/-- A cut gives the two parts, of which the first has as many bytes as the offset says. -/
theorem splitAt?_eq_some_iff {chars before behind : List Char} {position : Nat} :
    splitAt? chars position = some (before, behind) ↔
      chars = before ++ behind ∧ byteLength before = position := by
  constructor
  · intro h
    induction chars generalizing before position with
    | nil =>
        cases position with
        | zero => cases h; exact ⟨rfl, rfl⟩
        | succ position => cases h
    | cons c rest ih =>
        cases position with
        | zero => cases h; exact ⟨rfl, rfl⟩
        | succ position =>
            rw [splitAt?] at h
            split at h
            · next hfits =>
                obtain ⟨⟨front, back⟩, hsplit, hparts⟩ := Option.map_eq_some_iff.1 h
                cases hparts
                obtain ⟨rfl, hfront⟩ := ih hsplit
                refine ⟨rfl, ?_⟩
                rw [byteLength_cons, hfront]
                omega
            · cases h
  · rintro ⟨rfl, rfl⟩
    induction before with
    | nil => cases behind <;> rfl
    | cons c rest ih =>
        have hc := c.utf8Size_pos
        obtain ⟨position, hposition⟩ : ∃ position, byteLength (c :: rest) = position + 1 :=
          ⟨byteLength (c :: rest) - 1, by rw [byteLength_cons]; omega⟩
        rw [byteLength_cons] at hposition
        rw [byteLength_cons, hposition, List.cons_append, splitAt?, if_pos (by omega),
          show position + 1 - c.utf8Size = byteLength rest by omega, ih]
        rfl

/-- The part of a text that a range marks, if the range begins and ends between characters. -/
def slice? (source : String) (range : ByteRange) : Option String :=
  match splitAt? source.toList range.stop with
  | none => none
  | some (upTo, _) =>
    match splitAt? upTo range.start with
    | none => none
    | some (_, marked) => some (String.ofList marked)

/-- The character that begins at a byte offset, if one does. -/
def charAt? (source : String) (position : Nat) : Option Char :=
  match splitAt? source.toList position with
  | none => none
  | some (_, behind) => behind.head?

/-- A range marks a part exactly when the text is made of this part with other characters around it,
and the range counts the bytes up to both of its ends. -/
theorem slice?_eq_some_iff {source text : String} {range : ByteRange} :
    slice? source range = some text ↔
      ∃ before behind, source.toList = before ++ text.toList ++ behind ∧
        byteLength before = range.start ∧ byteLength (before ++ text.toList) = range.stop := by
  constructor
  · intro h
    unfold slice? at h
    split at h
    · cases h
    · next upTo behind hupTo =>
        obtain ⟨hsource, hstop⟩ := splitAt?_eq_some_iff.1 hupTo
        split at h
        · cases h
        · next before marked hbefore =>
            obtain ⟨rfl, hstart⟩ := splitAt?_eq_some_iff.1 hbefore
            cases h
            exact ⟨before, behind, by simpa using hsource, hstart, by simpa using hstop⟩
  · rintro ⟨before, behind, hsource, hstart, hstop⟩
    have hupTo := splitAt?_eq_some_iff.2 ⟨hsource, hstop⟩
    have hbefore := splitAt?_eq_some_iff.2
      ⟨show before ++ text.toList = before ++ text.toList from rfl, hstart⟩
    simp only [slice?, hupTo, hbefore, String.ofList_toList]

/-- The character at the end of a first part is the first of the other part. -/
theorem charAt?_of_eq_append {source : String} {before behind : List Char}
    (h : source.toList = before ++ behind) :
    charAt? source (byteLength before) = behind.head? := by
  simp only [charAt?, splitAt?_eq_some_iff.2 ⟨h, rfl⟩]

example : slice? "a≥b" ⟨1, 4⟩ = some "≥" := by decide +kernel
example : slice? "a≥b" ⟨1, 3⟩ = none := by decide +kernel

end Text

end ArrayShape
