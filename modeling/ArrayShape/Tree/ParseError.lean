import ArrayShape.Diagnostic
import ArrayShape.Token.Basic

/-!
# Texts that are not well formed

A `ParseError` is the reason why a text is not in the notation, with the place where this
showed. Where another token or the end of the text was wanted, the error lists the
alternatives as `Expected` values. `message` and `diagnostic` give the wording.
-/

namespace ArrayShape

/-- The greatest number of records that may enclose each other. -/
def maxRecordDepth : Nat := 64

/-- Something that could have stood where an unfitting token stands. -/
inductive Expected where
  | integer
  | name
  | keyword (reserved : Keyword)
  | openParen
  | closeParen
  | comma
  | equals
  | endOfInput
deriving DecidableEq

namespace Expected

/-- The wording of an alternative. -/
def text : Expected → String
  | .integer => "integer literal"
  | .name => "name"
  | .keyword reserved => "`" ++ reserved.text ++ "`"
  | .openParen => "`(`"
  | .closeParen => "`)`"
  | .comma => "`,`"
  | .equals => "`=`"
  | .endOfInput => "end of input"

/-- What can begin an operand. -/
def operand : List Expected :=
  [.integer, .name, .keyword .record, .keyword .enum, .keyword .var, .openParen]

/-- The sentence that lists alternatives, with commas and a last "or". -/
def sentence? (alternatives : List Expected) : Option String :=
  match alternatives.reverse with
  | [] => none
  | [only] => some ("expected " ++ only.text)
  | last :: others =>
    some ("expected " ++ ", ".intercalate (others.reverse.map text) ++ " or " ++ last.text)

end Expected

/-- Why a text is not well formed. -/
inductive ParseError where
  /-- A character that starts no token. -/
  | strayCharacter (range : ByteRange)
  /-- A token that does not fit where it stands. -/
  | unexpectedToken (range : ByteRange) (found : Token) (expected : List Expected)
  /-- The text ends where more is needed. -/
  | unexpectedEnd (position : Nat) (expected : List Expected)
  /-- The text ends before a parenthesis is closed. -/
  | unclosedParen (opening : ByteRange) (endPosition : Nat)
  /-- Arguments after a name that constructs no type. -/
  | unknownConstructor (range : ByteRange) (name : String)
  /-- A numeral that does not fit in 64 bits. -/
  | integerTooLarge (range : ByteRange)
  /-- A record inside too many others. -/
  | nestingTooDeep (range : ByteRange)
deriving DecidableEq

namespace ParseError

/-- The wording of an error. -/
def message : ParseError → String
  | .strayCharacter _ => "unexpected character"
  | .unexpectedToken _ found _ => "unexpected token `" ++ found.text ++ "`"
  | .unexpectedEnd _ _ => "unexpected end of input"
  | .unclosedParen _ _ => "unclosed parenthesis"
  | .unknownConstructor _ name => "unknown type constructor `" ++ name ++ "`"
  | .integerTooLarge _ => "integer literal is too large"
  | .nestingTooDeep _ => "records are nested too deeply"

/-- The part of the text that is at fault. -/
def range : ParseError → ByteRange
  | .strayCharacter range | .unexpectedToken range _ _ | .unclosedParen range _
  | .unknownConstructor range _ | .integerTooLarge range | .nestingTooDeep range => range
  | .unexpectedEnd position _ => .empty position

/-- The report of an error. -/
def diagnostic (error : ParseError) : Diagnostic ByteRange :=
  match error with
  | .strayCharacter range => .error error.message [.primary range ""] []
  | .unexpectedToken range _ expected =>
    .error error.message [.primary range "unexpected token"] (Expected.sentence? expected).toList
  | .unexpectedEnd position expected =>
    .error error.message [.primary (.empty position) "unexpected end of input"]
      (Expected.sentence? expected).toList
  | .unclosedParen opening endPosition =>
    .error error.message
      [.primary (.empty endPosition) "expected `)`", .secondary opening "unclosed `(`"] []
  | .unknownConstructor range _ =>
    .error error.message [.primary range "unknown constructor"]
      ["type constructors are " ++
        ", ".intercalate (Keyword.all.map fun reserved => "`" ++ reserved.text ++ "`")]
  | .integerTooLarge range =>
    .error error.message [.primary range ""]
      ["the largest supported integer is " ++ toString (UInt64.size - 1)]
  | .nestingTooDeep range =>
    .error error.message [.primary range ""]
      ["records may be nested at most " ++ toString maxRecordDepth ++ " deep"]

end ParseError

end ArrayShape
