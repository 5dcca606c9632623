import ArrayShape.Diagnostic.Render
import ArrayShape.Shape.Parse

/-!
# Reading from named sources

A `Session` holds the texts that were loaded, by their numbers, and the settings for reading
and rendering. Reports go to the user; as soon as one of them is a failure, the status of the
session is `error` for good.
-/

namespace ArrayShape

/-- Bytes that are delivered one after another, and why the delivery failed behind them if it
did. -/
structure Reader where
  bytes : ByteArray
  failure : Option String

/-- The text that a reader delivers, or why there is none. A failed delivery counts before bytes
that are not valid. -/
def Reader.text (reader : Reader) : Except String String :=
  match reader.failure with
  | some reason => .error reason
  | none =>
    match String.fromUTF8? reader.bytes with
    | some text => .ok text
    | none => .error "stream did not contain valid UTF-8"

/-- A reader delivers a text exactly when it does not fail and its bytes are those of the text. -/
theorem Reader.text_eq_ok_iff {reader : Reader} {text : String} :
    reader.text = .ok text ↔ reader.failure = none ∧ reader.bytes = text.toUTF8 := by
  obtain ⟨bytes, failure⟩ := reader
  cases failure with
  | some reason => simp [Reader.text]
  | none =>
      by_cases hvalid : bytes.IsValidUTF8
      · have hread : Reader.text ⟨bytes, none⟩ = .ok (String.fromUTF8 bytes hvalid) := by
          simp only [Reader.text, String.fromUTF8?, dif_pos hvalid]
        rw [hread]
        constructor
        · intro h
          cases h
          exact ⟨rfl, rfl⟩
        · intro h
          obtain ⟨-, rfl⟩ := h
          rfl
      · have hread : Reader.text ⟨bytes, none⟩ = .error "stream did not contain valid UTF-8" := by
          simp only [Reader.text, String.fromUTF8?, dif_neg hvalid]
        rw [hread]
        constructor
        · intro h
          cases h
        · intro h
          obtain ⟨-, rfl⟩ := h
          exact absurd text.isValidUTF8 hvalid

/-- Whether anything failed so far. -/
inductive Status where
  | ok
  | error
deriving DecidableEq

namespace Status

/-- The exit code of a program that ends with a status. -/
def exitCode : Status → Nat
  | .ok => 0
  | .error => 1

/-- The word for a status. -/
def text : Status → String
  | .ok => "Ok"
  | .error => "Error"

end Status

/-- Loaded texts and settings. -/
structure Session where
  /-- The loaded texts; the number of a text is its position. -/
  files : Array SourceFile
  options : Options
  style : Style
  /-- A failure was reported. -/
  failed : Bool

namespace Session

/-- A session without texts, with both checks set. The rich display, which a driver uses until it is
told otherwise, has no `Style`, and reports are rendered with their headings and notes in its place:
what a session answers, writes and reports is the same in every style. -/
def initial : Session :=
  ⟨#[], {}, .medium, false⟩

/-- The status of a session. -/
def status (session : Session) : Status :=
  if session.failed then .error else .ok

/-- The report that a source cannot be read. -/
def unreadable (name reason : String) : Diagnostic Place :=
  .plain .error ("couldn't read `" ++ name ++ "`: " ++ reason) []

/-- The report that a text is too long. -/
def tooLarge : Diagnostic Place :=
  .plain .error "source is too large"
    ["sources must be at most " ++ toString maxSourceSize ++ " bytes long"]

/-- The report that no text has a number. -/
def missing : Diagnostic Place :=
  .plain .bug "file missing" []

/-- The shape of the text with a number, or the report why there is none. -/
def shapeOf (session : Session) (id : Nat) : Except (Diagnostic Place) (Shape String) :=
  match session.files[id]? with
  | none => .error missing
  | some file =>
    if maxSourceSize < file.text.utf8ByteSize then .error tooLarge
    else
      match Shape.parse session.options file.text with
      | .ok shape => .ok shape
      | .error error => .error (error.diagnostic.relocate file.place)

end Session

end ArrayShape
