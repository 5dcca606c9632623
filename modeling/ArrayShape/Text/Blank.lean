/-!
# Blank characters

Between tokens a text may hold any character with the Unicode property White_Space. The
property is a fixed table of 25 code points, given here as ten intervals. It holds more than
the characters that `Char.isWhitespace` accepts, and `isBlank_of_isWhitespace` says that it
holds all of those.
-/

namespace ArrayShape.Text

/-- The code points with the property White_Space, as closed intervals in increasing order. -/
def blankIntervals : List (Nat × Nat) :=
  [(0x09, 0x0D), (0x20, 0x20), (0x85, 0x85), (0xA0, 0xA0), (0x1680, 0x1680),
   (0x2000, 0x200A), (0x2028, 0x2029), (0x202F, 0x202F), (0x205F, 0x205F), (0x3000, 0x3000)]

/-- The character has the property White_Space. -/
def isBlank (c : Char) : Bool :=
  blankIntervals.any fun (low, high) => low ≤ c.toNat && c.toNat ≤ high

/-- Space, tab, carriage return and line feed are blank. -/
theorem isBlank_of_isWhitespace {c : Char} (h : c.isWhitespace = true) : isBlank c = true := by
  simp only [Char.isWhitespace, Bool.or_eq_true, decide_eq_true_eq] at h
  rcases h with ((rfl | rfl) | rfl) | rfl <;> decide

/-- The intervals hold 25 code points. -/
example : (blankIntervals.map fun (low, high) => high + 1 - low).sum = 25 := by decide

/-- Each interval ends before the next begins. -/
example : blankIntervals.Pairwise (fun earlier later => earlier.2 < later.1) := by decide

end ArrayShape.Text
