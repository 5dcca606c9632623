import ArrayShape.ByteRange
import ArrayShape.Keyword

/-!
# Tokens

The words and marks of the notation. A `Token` keeps the text it was written as, so that a
numeral keeps its leading zeros. A `Lexeme` is an item of a text with its range: a token, or a
stray character that starts no token.
-/

namespace ArrayShape

/-- A word or mark of the notation. -/
inductive Token where
  | name (text : String)
  | number (digits : String)
  | keyword (reserved : Keyword)
  | comma
  | equals
  | openParen
  | closeParen
deriving DecidableEq

namespace Token

/-- The token as it is written. -/
def text : Token → String
  | .name text => text
  | .number digits => digits
  | .keyword reserved => reserved.text
  | .comma => ","
  | .equals => "="
  | .openParen => "("
  | .closeParen => ")"

/-- What kind of token it is. Keywords and marks are kinds of their own. -/
def description : Token → String
  | .name _ => "name"
  | .number _ => "integer literal"
  | .keyword reserved => reserved.text
  | .comma => ","
  | .equals => "="
  | .openParen => "("
  | .closeParen => ")"

/-- The token for a whole word: the keyword that is written so, or else a name. -/
def ofWord (word : String) : Token :=
  match Keyword.ofText? word with
  | some reserved => .keyword reserved
  | none => .name word

/-- The token for a word is written as the word. -/
@[simp] theorem text_ofWord (word : String) : (ofWord word).text = word := by
  unfold ofWord
  split
  · next h => exact Keyword.text_of_ofText? h
  · rfl

end Token

/-- An item of a text: a token, or a character that starts none. -/
inductive Lexeme where
  | token (token : Token) (range : ByteRange)
  | stray (range : ByteRange)
deriving DecidableEq

/-- The part of the text that an item takes. -/
def Lexeme.range : Lexeme → ByteRange
  | .token _ range | .stray range => range

/-- The item whose offsets stand where a function puts them. -/
def Lexeme.move (place : Nat → Nat) : Lexeme → Lexeme
  | .token found range => .token found (range.move place)
  | .stray range => .stray (range.move place)

@[simp] theorem Lexeme.move_token (place : Nat → Nat) (found : Token) (range : ByteRange) :
    (token found range).move place = .token found (range.move place) := rfl

end ArrayShape
