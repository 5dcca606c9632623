/-!
# Lines of a text

A line ends with a line feed, or with the text. `lines` cuts a text into its lines, without
their line feeds and without a carriage return in front of a line feed. `lineAndColumn` tells
where a byte of a text stands. Only line feeds end a line, and every other character is one
column wide.
-/

namespace ArrayShape.Text

/-- The lines of a text given by its characters. A text that ends with a line feed has no
further line behind it. -/
def linesOf : List Char → List (List Char)
  | [] => []
  | '\n' :: rest => [] :: linesOf rest
  | '\r' :: '\n' :: rest => [] :: linesOf rest
  | c :: rest =>
    match linesOf rest with
    | [] => [[c]]
    | line :: others => (c :: line) :: others

/-- The lines of a text. -/
def lines (text : String) : List String :=
  (linesOf text.toList).map String.ofList

/-- The line and column of the character at a byte offset, counted from a line and a column at
the start of the text. -/
def advance (line column offset : Nat) : List Char → Nat × Nat
  | [] => (line, column)
  | c :: rest =>
    if offset < c.utf8Size then (line, column)
    else if c = '\n' then advance (line + 1) 1 (offset - c.utf8Size) rest
    else advance line (column + 1) (offset - c.utf8Size) rest

/-- The line and column of a byte offset, both counted from one. -/
def lineAndColumn (text : String) (offset : Nat) : Nat × Nat :=
  advance 1 1 offset text.toList

example : lines "a\r\n\nb\r" = ["a", "", "b\r"] := by decide
example : lines "a\r\r\nb\n" = ["a\r", "b"] := by decide
example : lines "" = [] := by decide
example : lineAndColumn "é\nab" 4 = (2, 2) := by decide

end ArrayShape.Text
