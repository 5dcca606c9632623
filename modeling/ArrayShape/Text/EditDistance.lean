/-!
# Distance between words

The distance between two lists is the least number of insertions, deletions and substitutions
of single elements that turn one into the other. It is computed row by row: the row of a list
`source` against `target` holds the distances from `source` to every suffix of `target`, the
longest first, and the row of `c :: source` is found from the row of `source`.
-/

namespace ArrayShape.Text

variable {α : Type} [DecidableEq α]

/-- The distances from no elements to every suffix of the target. -/
def emptyRow : List α → List Nat
  | [] => [0]
  | target@(_ :: rest) => target.length :: emptyRow rest

/-- The row of `c` followed by a source, from the row of the source. The first entry of each
row belongs to the whole target. -/
def extendRow (c : α) : List α → List Nat → List Nat
  | [], row => [row.headD 0 + 1]
  | d :: rest, row =>
    let later := extendRow c rest row.tail
    let least :=
      if c = d then row.tail.headD 0
      else 1 + min (row.headD 0) (min (row.tail.headD 0) (later.headD 0))
    least :: later

/-- The distances from a source to every suffix of a target. -/
def distanceRow (target : List α) : List α → List Nat
  | [] => emptyRow target
  | c :: source => extendRow c target (distanceRow target source)

/-- The least number of single insertions, deletions and substitutions between two lists. -/
def editDistance (source target : List α) : Nat :=
  (distanceRow target source).headD 0

example : editDistance "widht".toList "width".toList = 2 := by decide
example : editDistance "kitten".toList "sitting".toList = 3 := by decide
example : editDistance [] "abc".toList = 3 := by decide
example : editDistance "abc".toList [] = 3 := by decide

end ArrayShape.Text
