/-!
# Decimal numerals of 64-bit words

A numeral is a run of decimal digits, with any number of leading zeros. `read?` accepts the
numerals whose value fits in 64 bits, and `write` gives the numeral without leading zeros.
`read?_write` says that a written word reads back, and `read?_eq_some_iff` that reading
depends on the value alone.
-/

namespace ArrayShape.Decimal

/-- The number that a run of decimal digits denotes. -/
def value (digits : String) : Nat :=
  Nat.ofDigitChars 10 digits.toList 0

/-- The word that a numeral denotes, if its value fits in 64 bits. -/
def read? (digits : String) : Option UInt64 :=
  if h : value digits < UInt64.size then some (UInt64.ofNatLT (value digits) h) else none

/-- The numeral of a word without leading zeros. -/
def write (word : UInt64) : String :=
  Nat.repr word.toNat

/-- A numeral reads as the word with its value, and as nothing else. -/
theorem read?_eq_some_iff {digits : String} {word : UInt64} :
    read? digits = some word ↔ value digits = word.toNat := by
  unfold read?
  split
  · next h =>
    rw [Option.some.injEq, ← UInt64.toNat_inj]
    simp
  · next h =>
    have hword := word.toNat_lt_size
    constructor
    · intro h
      cases h
    · intro hvalue
      omega

/-- A numeral does not read exactly when its value needs more than 64 bits. -/
theorem read?_eq_none_iff {digits : String} : read? digits = none ↔ UInt64.size ≤ value digits := by
  unfold read?
  split
  · next h =>
    simp only [reduceCtorEq, false_iff, Nat.not_le]
    exact h
  · next h =>
    simp only [true_iff]
    exact Nat.le_of_not_lt h

/-- The value of a written word is the word. -/
theorem value_write (word : UInt64) : value (write word) = word.toNat := by
  simp [value, write, Nat.toList_repr, Nat.ofDigitChars_ten_toDigits]

/-- A written word reads back. -/
theorem read?_write (word : UInt64) : read? (write word) = some word :=
  read?_eq_some_iff.2 (value_write word)

end ArrayShape.Decimal
