import ArrayShape.Session.Basic

/-!
# Commands of a session

A `Command` loads a text, changes a setting, reads a shape or makes a report. `Session.step`
carries out one command, and its `Reply` holds the answer, the text written to the output and
the reports that were made. `Session.run` carries out commands in order.
-/

namespace ArrayShape

/-- Something to do in a session. -/
inductive Command where
  /-- Load a text that is at hand. -/
  | loadText (name text : String)
  /-- Load the text that a reader delivers. -/
  | load (name : String) (reader : Reader)
  /-- Load the text of a file, which may have failed to open for a reason. -/
  | loadPath (path : String) (opened : Except String Reader)
  | setValidateBounds (value : Bool)
  | setAllowRepeats (value : Bool)
  | setStyle (style : Style)
  /-- Read the shape of the text with a number. -/
  | parse (id : Nat)
  /-- Read the shape of the text with a number, and write it to the output. -/
  | emit (id : Nat)
  /-- Make a report. -/
  | report (diagnostic : Diagnostic Place)

/-- The answer to a command. -/
inductive Answer where
  | done
  /-- The number of the text, if it was loaded. -/
  | loaded (id : Option Nat)
  /-- The shape, if there is one. -/
  | parsed (shape : Option (Shape String))
  /-- Whether a shape was written. -/
  | emitted (status : Status)
deriving DecidableEq

/-- What a command gives: the answer, the text written to the output, the reports that were
made, and their rendered text. -/
structure Reply where
  answer : Answer
  output : String
  reports : List (Diagnostic Place)
  errors : String
deriving DecidableEq

/-- The reply of a command that makes no report. -/
def Reply.quiet (answer : Answer) (output : String) : Reply :=
  ⟨answer, output, [], ""⟩

namespace Session

/-- Makes a report, and gives an answer. -/
def makeReport (session : Session) (diagnostic : Diagnostic Place) (answer : Answer) :
    Session × Reply :=
  ({ session with failed := session.failed || diagnostic.severity.isFailure },
    ⟨answer, "", [diagnostic], diagnostic.render session.style⟩)

/-- Adds a text under the next number. -/
def addText (session : Session) (name text : String) : Session × Reply :=
  ({ session with files := session.files.push ⟨name, text⟩ },
    .quiet (.loaded (some session.files.size)) "")

/-- Adds the text that a reader delivers, or reports why there is none. -/
def addFrom (session : Session) (name : String) (reader : Reader) : Session × Reply :=
  match reader.text with
  | .ok text => session.addText name text
  | .error reason => session.makeReport (unreadable name reason) (.loaded none)

/-- Carries out a command. -/
def step (session : Session) : Command → Session × Reply
  | .loadText name text => session.addText name text
  | .load name reader => session.addFrom name reader
  | .loadPath path (.ok reader) => session.addFrom path reader
  | .loadPath path (.error reason) =>
    session.makeReport (unreadable path reason) (.loaded none)
  | .setValidateBounds value =>
    ({ session with options := { session.options with validateBounds := value } },
      .quiet .done "")
  | .setAllowRepeats value =>
    ({ session with options := { session.options with allowRepeats := value } },
      .quiet .done "")
  | .setStyle style => ({ session with style := style }, .quiet .done "")
  | .parse id =>
    match session.shapeOf id with
    | .ok shape => (session, .quiet (.parsed (some shape)) "")
    | .error diagnostic => session.makeReport diagnostic (.parsed none)
  | .emit id =>
    match session.shapeOf id with
    | .ok shape => (session, .quiet (.emitted .ok) (shape.text ++ "\n"))
    | .error diagnostic => session.makeReport diagnostic (.emitted .error)
  | .report diagnostic => session.makeReport diagnostic .done

/-- Carries out commands in order, and gives their replies. -/
def run (session : Session) : List Command → Session × List Reply
  | [] => (session, [])
  | command :: rest =>
    let (next, reply) := session.step command
    let (last, replies) := next.run rest
    (last, reply :: replies)

end Session

end ArrayShape
