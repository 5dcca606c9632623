/-!
# Byte ranges

A `ByteRange` marks a part of a text by two byte offsets into its UTF-8 form. Offsets are
natural numbers and no order is imposed on them: a range may be empty, or stop before it
starts. `merge` is the smallest range that covers two ordered ranges, and `Spanned` attaches
a range to a value that was read from it.
-/

namespace ArrayShape

/-- Two byte offsets into a text: where something starts, and where it stops. -/
structure ByteRange where
  start : Nat
  stop : Nat
deriving DecidableEq

namespace ByteRange

/-- The range at `position` that covers no byte. -/
def empty (position : Nat) : ByteRange :=
  ⟨position, position⟩

/-- The range from the earlier start to the later stop of two ranges. -/
def merge (first second : ByteRange) : ByteRange :=
  ⟨min first.start second.start, max first.stop second.stop⟩

/-- The byte at an offset lies in the range. -/
def Contains (range : ByteRange) (position : Nat) : Prop :=
  range.start ≤ position ∧ position < range.stop

/-- The range whose offsets stand where a function puts them. -/
def move (place : Nat → Nat) (range : ByteRange) : ByteRange :=
  ⟨place range.start, place range.stop⟩

/-- A function that keeps the order of offsets. -/
def KeepsOrder (place : Nat → Nat) : Prop :=
  ∀ earlier later, earlier ≤ later → place earlier ≤ place later

/-- The two offsets with two dots between them. -/
def text (range : ByteRange) : String :=
  toString range.start ++ ".." ++ toString range.stop

/-- The offsets of a range under the name of its type. -/
def describe (range : ByteRange) : String :=
  "ByteRange(" ++ range.text ++ ")"

/-- Merging a range with itself changes nothing. -/
@[simp] theorem merge_self (range : ByteRange) : range.merge range = range := by
  simp [merge]

/-- Merging does not depend on the order of the two ranges. -/
theorem merge_comm (first second : ByteRange) : first.merge second = second.merge first := by
  simp [merge, Nat.min_comm, Nat.max_comm]

/-- Merging three ranges does not depend on which two are merged first. -/
theorem merge_assoc (first second third : ByteRange) :
    (first.merge second).merge third = first.merge (second.merge third) := by
  simp [merge, Nat.min_assoc, Nat.max_assoc]

/-- Merging may be done before or after moving the offsets, if they keep their order. -/
theorem move_merge {place : Nat → Nat} (hplace : KeepsOrder place) (first second : ByteRange) :
    (first.merge second).move place = (first.move place).merge (second.move place) := by
  have hmin (earlier later : Nat) :
      place (min earlier later) = min (place earlier) (place later) := by
    rcases Nat.le_total earlier later with h | h
    · rw [Nat.min_eq_left h, Nat.min_eq_left (hplace _ _ h)]
    · rw [Nat.min_eq_right h, Nat.min_eq_right (hplace _ _ h)]
  have hmax (earlier later : Nat) :
      place (max earlier later) = max (place earlier) (place later) := by
    rcases Nat.le_total earlier later with h | h
    · rw [Nat.max_eq_right h, Nat.max_eq_right (hplace _ _ h)]
    · rw [Nat.max_eq_left h, Nat.max_eq_left (hplace _ _ h)]
  simp only [move, merge, hmin, hmax]

/-- Ranges that follow each other merge into the range from the first start to the last stop. -/
theorem merge_of_le {first second : ByteRange} (hstart : first.start ≤ second.start)
    (hstop : first.stop ≤ second.stop) : first.merge second = ⟨first.start, second.stop⟩ := by
  simp [merge, Nat.min_eq_left hstart, Nat.max_eq_right hstop]

end ByteRange

/-- A value together with the range of the text it was read from. -/
structure Spanned (α : Type) where
  range : ByteRange
  value : α
deriving DecidableEq

end ArrayShape
