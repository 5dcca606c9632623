import ArrayShape.Proofs.Joining
import ArrayShape.Proofs.Rejection

/-!
# Errors are final

An error that shows before the end of a text is the error of every longer text
(`Tree.parse_append_of_error`). The blank behind the text ends its last token, so that its items are
the first of the longer text, and the automaton has moved to the error when it comes to the others
(`Parser.run_append`). Only an error at the end of the text waits for what follows.
-/

namespace ArrayShape

/-- An error that shows where the text ends. -/
def ParseError.isAtEnd : ParseError → Bool
  | .unexpectedEnd _ _ | .unclosedParen _ _ => true
  | .strayCharacter _ | .unexpectedToken _ _ _ | .unknownConstructor _ _ | .integerTooLarge _
  | .nestingTooDeep _ => false

namespace Text

/-- A blank goes on with no word. -/
theorem not_isWordChar_of_isBlank {c : Char} (h : isBlank c = true) : isWordChar c = false := by
  have hblank := toNat_of_isBlank h
  refine Bool.eq_false_iff.2 fun hword => ?_
  simp only [isWordChar, Char.isAlphanum, Bool.or_eq_true, decide_eq_true_eq] at hword
  obtain (halpha | hdigit) | rfl := hword
  · have hletter := toNat_of_isAlpha halpha
    omega
  · have hdigit := toNat_of_isDigit hdigit
    omega
  · revert hblank
    decide

end Text

namespace Lexeme

open Lexer Text

/-- The items of a text and of others that end its last word. -/
theorem ofText_append {tail : String} (source : String) (htail : Delimited tail.toList) :
    ofText (source ++ tail) =
      ofText source ++ (ofText tail).map (move (· + source.utf8ByteSize)) := by
  have hbehind := scan_behind tail source.utf8ByteSize
  rw [← byteLength_toList, ← Nat.zero_add (byteLength source.toList)] at hbehind
  have hscan := (scan_ofText source).append htail hbehind
  rw [Nat.zero_add, byteLength_toList] at hscan
  rw [ofText, String.toList_append]
  exact (scan_iff.1 hscan).symm

end Lexeme

namespace Parser

variable {depth endPosition : Nat}

/-- The end of a text is rejected at the end. -/
theorem isAtEnd_of_finish {state : State} {error : ParseError}
    (h : finish endPosition state = .error error) :
    error.isAtEnd = true := by
  obtain ⟨-, innermost, outer, -, rfl⟩ | ⟨-, rfl⟩ := finish_eq_error h
  · rfl
  · rfl

/-- What a run over items gives does not wait for what follows them: the list of operands ends in
front of one of them, or an error shows there. -/
def Settled : Except ParseError (List (Term String) × List Lexeme) → Prop
  | .ok (_, left) => left ≠ []
  | .error error => error.isAtEnd = false

/-- A run that is settled goes on alike over items that go on. -/
theorem run_append {state : State} {items : List Lexeme}
    (h : Settled (run depth endPosition state items)) (position : Nat) (more : List Lexeme) :
    run depth position state (items ++ more) =
      (run depth endPosition state items).map fun (terms, left) => (terms, left ++ more) := by
  induction items generalizing state with
  | nil =>
      -- Nothing is settled where the items end.
      simp only [run] at h
      cases hfinish : finish endPosition state with
      | ok terms =>
          rw [hfinish] at h
          exact absurd rfl h
      | error error =>
          have hsettled : error.isAtEnd = false := by
            rw [hfinish] at h
            exact h
          rw [isAtEnd_of_finish hfinish] at hsettled
          cases hsettled
  | cons item rest ih =>
      cases item with
      | stray range => rfl
      | token token range =>
          simp only [List.cons_append, run] at h ⊢
          cases hstep : step depth state token range with
          | error error => rfl
          | ok effect =>
              rw [hstep] at h
              cases effect with
              | stop terms => rfl
              | next following => exact ih h

end Parser

namespace Tree

variable {error : ParseError}

/-- An error that shows before the end of items is the error of all items that go on with them. -/
theorem ofLexemes_append_error {endPosition : Nat} {items : List Lexeme}
    (h : ofLexemes endPosition items = .error error) (herror : error.isAtEnd = false)
    (position : Nat) (more : List Lexeme) :
    ofLexemes position (items ++ more) = .error error := by
  unfold ofLexemes at h ⊢
  cases hrun : Parser.run 0 endPosition .initial items with
  | error found =>
      have hsettled : Parser.Settled (Parser.run 0 endPosition .initial items) := by
        rw [hrun] at h ⊢
        cases h
        exact herror
      rw [Parser.run_append hsettled, hrun]
      rw [hrun] at h
      exact h
  | ok result =>
      obtain ⟨terms, left⟩ := result
      rw [hrun] at h
      cases left with
      | nil => cases h
      | cons item left =>
          have hsettled : Parser.Settled (Parser.run 0 endPosition .initial items) := by
            rw [hrun]
            exact List.cons_ne_nil item left
          rw [Parser.run_append hsettled, hrun]
          cases item <;> exact h

/-- An error that shows before the end of a text is the error of every text that goes on with it,
and not with its last word. -/
theorem parse_append_of_delimited {source tail : String} (h : parse source = .error error)
    (herror : error.isAtEnd = false) (htail : Text.Delimited tail.toList) :
    parse (source ++ tail) = .error error := by
  rw [parse, Lexeme.ofText_append source htail]
  exact ofLexemes_append_error h herror _ _

/-- A text that is not well formed stays so with the same error, whatever follows behind a blank,
unless the error shows at the end of the text. -/
theorem parse_append_of_error {source tail : String} (h : parse source = .error error)
    (herror : error.isAtEnd = false) (htail : ∀ c ∈ tail.toList.head?, Text.isBlank c = true) :
    parse (source ++ tail) = .error error :=
  parse_append_of_delimited h herror fun c hc => Text.not_isWordChar_of_isBlank (htail c hc)

/-- A name with an argument list is rejected for its name, also where stray characters, a closing
parenthesis and a well-formed list follow. -/
theorem parse_append_of_error_constructor :
    parse "3, Foo(" = .error (.unknownConstructor ⟨3, 6⟩ "Foo") ∧
      ParseError.isAtEnd (.unknownConstructor ⟨3, 6⟩ "Foo") = false ∧
      (∀ c ∈ "\n☃) Enum(1), ?".toList.head?, Text.isBlank c = true) ∧
      parse ("3, Foo(" ++ "\n☃) Enum(1), ?") = .error (.unknownConstructor ⟨3, 6⟩ "Foo") := by
  have hitems : Lexeme.ofText "3, Foo(" =
      [.token (.number "3") ⟨0, 1⟩, .token .comma ⟨1, 2⟩, .token (.name "Foo") ⟨3, 6⟩,
        .token .openParen ⟨6, 7⟩] := by
    decide +kernel
  have hsource : parse "3, Foo(" = .error (.unknownConstructor ⟨3, 6⟩ "Foo") := by
    rw [parse, hitems]
    rfl
  have htail : ∀ c ∈ "\n☃) Enum(1), ?".toList.head?, Text.isBlank c = true := by
    have hhead : "\n☃) Enum(1), ?".toList.head? = some '\n' := by decide +kernel
    intro c hc
    rw [hhead] at hc
    cases hc
    decide
  exact ⟨hsource, rfl, htail, parse_append_of_error hsource rfl htail⟩

end Tree

end ArrayShape
