import ArrayShape.Text.Blank
import ArrayShape.Text.Slice
import ArrayShape.Token.Basic

/-!
# Reading the items of a text

A text is cut from left to right. Its first character decides what comes next: a letter starts
a word, which takes every letter, digit and underscore that follows; a digit starts a numeral,
which takes every digit that follows; a mark is a token alone; a blank character is skipped;
and any other character is a stray item alone. `firstItem` makes one such cut, which takes at
least one character and loses none (`taken_append_left`), and `Lexeme.ofText` makes all of them.
-/

namespace ArrayShape

namespace Text

/-- A character that may follow the first letter of a word: an ASCII letter, an ASCII digit or
an underscore. -/
def isWordChar (c : Char) : Bool :=
  c.isAlphanum || c = '_'

end Text

namespace Lexer

/-- What the characters at the start of a text are. -/
inductive Item where
  | blank
  | stray
  | token (token : Token)
deriving DecidableEq

/-- A cut of a text behind its first item. -/
structure Cut where
  item : Item
  taken : List Char
  left : List Char
deriving DecidableEq

/-- The token that a single character is, whatever follows it. -/
def mark? (c : Char) : Option Token :=
  match c with
  | ',' => some .comma
  | '=' => some .equals
  | '(' => some .openParen
  | ')' => some .closeParen
  | _ => none

/-- Cuts the text `c :: rest` behind its first item. -/
def firstItem (c : Char) (rest : List Char) : Cut :=
  if c.isAlpha then
    let word := c :: rest.takeWhile Text.isWordChar
    ⟨.token (Token.ofWord (String.ofList word)), word, rest.dropWhile Text.isWordChar⟩
  else if c.isDigit then
    let digits := c :: rest.takeWhile Char.isDigit
    ⟨.token (.number (String.ofList digits)), digits, rest.dropWhile Char.isDigit⟩
  else
    match mark? c with
    | some token => ⟨.token token, [c], rest⟩
    | none => ⟨if Text.isBlank c then .blank else .stray, [c], rest⟩

/-- Cutting loses no character. -/
theorem taken_append_left (c : Char) (rest : List Char) :
    (firstItem c rest).taken ++ (firstItem c rest).left = c :: rest := by
  unfold firstItem
  split
  · simp
  · split
    · simp
    · split <;> simp

/-- The first character is always taken. -/
theorem left_length_le (c : Char) (rest : List Char) :
    (firstItem c rest).left.length ≤ rest.length := by
  unfold firstItem
  split
  · exact (List.dropWhile_sublist _).length_le
  · split
    · exact (List.dropWhile_sublist _).length_le
    · split <;> exact Nat.le_refl _

/-- The items of a text whose first character stands at byte `offset`. -/
def lexemesFrom (offset : Nat) : List Char → List Lexeme
  | [] => []
  | c :: rest =>
    let cut := firstItem c rest
    let range : ByteRange := ⟨offset, offset + Text.byteLength cut.taken⟩
    match cut.item with
    | .blank => lexemesFrom range.stop cut.left
    | .stray => .stray range :: lexemesFrom range.stop cut.left
    | .token token => .token token range :: lexemesFrom range.stop cut.left
termination_by chars => chars.length
decreasing_by all_goals exact Nat.lt_succ_of_le (left_length_le c rest)

end Lexer

/-- The greatest number of bytes of a text that is read, so that every offset fits in 32 bits. -/
def maxSourceSize : Nat := 4294967295

/-- The items of a text, in order. A caller must give at most `maxSourceSize` bytes: longer texts
have items here as well, but a reader that stores offsets in 32 bits refuses them. -/
def Lexeme.ofText (source : String) : List Lexeme :=
  Lexer.lexemesFrom 0 source.toList

end ArrayShape
