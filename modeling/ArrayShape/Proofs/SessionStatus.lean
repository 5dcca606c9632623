import ArrayShape.Proofs.SessionRuns

/-!
# The status and the output of a session

What is written and reported in a session follows from its commands (`Session.run_accountable`). One
command either answers without a report, or it fails, makes one report of a failure and writes
nothing (`Session.conduct_step`). Over a run, the status is an error from the first failure on, and
the output holds the shapes of the commands that write one, each on its line.
-/

namespace ArrayShape

/-- The answer says that a text was not loaded, or that a shape was not read. -/
def Answer.isFailure : Answer → Bool
  | .loaded none | .parsed none | .emitted .error => true
  | .done | .loaded (some _) | .parsed (some _) | .emitted .ok => false

namespace Command

/-- A command with an answer fails: a load or a reading by its answer, and a report by its
severity. -/
inductive Fails : Command → Answer → Prop where
  | answer (command : Command) {answer : Answer} : answer.isFailure = true → Fails command answer
  | report {diagnostic : Diagnostic Place} (answer : Answer) :
    diagnostic.severity = .error ∨ diagnostic.severity = .bug → Fails (.report diagnostic) answer

/-- The command sets an option or the style of reports. -/
def isSetting : Command → Bool
  | .setValidateBounds _ | .setAllowRepeats _ | .setStyle _ => true
  | .loadText _ _ | .load _ _ | .loadPath _ _ | .parse _ | .emit _ | .report _ => false

/-- The command loads a text. -/
def isLoad : Command → Bool
  | .loadText _ _ | .load _ _ | .loadPath _ _ => true
  | .setValidateBounds _ | .setAllowRepeats _ | .setStyle _ | .parse _ | .emit _
  | .report _ => false

/-- The command makes a report that it is given. -/
def isReport : Command → Bool
  | .report _ => true
  | .loadText _ _ | .load _ _ | .loadPath _ _ | .setValidateBounds _ | .setAllowRepeats _
  | .setStyle _ | .parse _ | .emit _ => false

/-- The shape that is read behind commands: that of the text they loaded with the number, with the
options they set last. There is none if there is no such text, or it is too long, or it is not
read. -/
def shape? (before : List Command) (id : Nat) : Option (Shape String) :=
  (files before)[id]?.bind fun file =>
    if maxSourceSize < file.text.utf8ByteSize then none
    else (Shape.parse (lastOptions before) file.text).toOption

/-- The shape that a command writes behind others. -/
def written? (before : List Command) : Command → Option (Shape String)
  | .emit id => shape? before id
  | _ => none

/-- The shapes that commands write, in order. -/
def shapesWritten (commands : List Command) : List (Shape String) :=
  (List.range commands.length).filterMap fun position =>
    commands[position]?.bind (written? (commands.take position))

end Command

/-- The line of a shape that is written. -/
def Shape.line (shape : Shape String) : String :=
  shape.text ++ "\n"

/-- Texts that are joined may be left out where they are empty. -/
theorem join_map_elim {α β : Type} (f : α → Option β) (line : β → String) (items : List α) :
    String.join (items.map fun item => (f item).elim "" line) =
      String.join ((items.filterMap f).map line) := by
  induction items with
  | nil => rfl
  | cons item rest ih =>
      rw [List.map_cons, String.join_cons, ih, List.filterMap_cons]
      cases f item with
      | none => simp
      | some value => simp

/-- Failures are errors and bugs. -/
theorem Severity.isFailure_iff {severity : Severity} :
    severity.isFailure = true ↔ severity = .error ∨ severity = .bug := by
  cases severity <;> simp [isFailure]

/-- The report of an error is an error. -/
theorem Error.severity_diagnostic (error : Error) : error.diagnostic.severity = .error := by
  cases error with
  | malformed error => cases error <;> rfl
  | invalid error => cases error <;> rfl

namespace Session

/-! ## One command -/

/-- The shape that a command writes. -/
def written? (session : Session) : Command → Option (Shape String)
  | .emit id => (session.shapeOf id).toOption
  | _ => none

/-- A report why a shape is not read is a failure. -/
theorem isFailure_of_shapeOf {session : Session} {id : Nat} {diagnostic : Diagnostic Place}
    (h : session.shapeOf id = .error diagnostic) : diagnostic.severity.isFailure = true := by
  unfold shapeOf at h
  split at h
  · cases h
    rfl
  · split at h
    · cases h
      rfl
    · split at h
      · cases h
      · next error herror =>
          cases h
          show error.diagnostic.severity.isFailure = true
          rw [error.severity_diagnostic]
          rfl

/-- What a command does to the status of a session, and what it reports and writes. -/
structure Conduct (session : Session) (command : Command) (result : Session × Reply) : Prop where
  /-- A failure counts for good, and nothing else does. -/
  failed : result.1.failed = true ↔ session.failed = true ∨ command.Fails result.2.answer
  /-- A load or a reading that fails makes one report of a failure, and writes nothing. -/
  failure : result.2.answer.isFailure = true → ∃ diagnostic : Diagnostic Place,
    result.2.reports = [diagnostic] ∧ diagnostic.severity.isFailure = true ∧
      result.2.errors = diagnostic.render session.style ∧ result.2.output = ""
  /-- Any other command makes no report, unless it is the command to make one. -/
  success : result.2.answer.isFailure = false → command.isReport = false →
    result.2.reports = [] ∧ result.2.errors = ""
  /-- The output is the line of the shape that is written. -/
  output : result.2.output = (session.written? command).elim "" Shape.line
  /-- A shape is written by the commands that answer so. -/
  emitted : result.2.answer = .emitted .ok ↔ (session.written? command).isSome = true

section Step

variable {session : Session} {command : Command}

/-- The conduct of a load or a reading that fails. -/
theorem Conduct.ofFailure {diagnostic : Diagnostic Place} {answer : Answer}
    (hseverity : diagnostic.severity.isFailure = true) (hanswer : answer.isFailure = true)
    (hwritten : session.written? command = none) :
    Conduct session command (session.makeReport diagnostic answer) where
  failed := by simp [makeReport, hseverity, Command.Fails.answer command hanswer]
  failure _ := ⟨diagnostic, rfl, hseverity, rfl, rfl⟩
  success hsuccess := by
    rw [show (session.makeReport diagnostic answer).2.answer = answer from rfl, hanswer] at hsuccess
    cases hsuccess
  output := by
    rw [hwritten]
    rfl
  emitted := by
    rw [hwritten]
    refine iff_of_false (fun hemitted => ?_) Bool.false_ne_true
    rw [show answer = .emitted .ok from hemitted] at hanswer
    cases hanswer

/-- The conduct of a command that makes no report. -/
theorem Conduct.ofQuiet {next : Session} {answer : Answer} {output : String}
    (hfailed : next.failed = session.failed) (hanswer : answer.isFailure = false)
    (hreport : command.isReport = false)
    (houtput : output = (session.written? command).elim "" Shape.line)
    (hemitted : answer = .emitted .ok ↔ (session.written? command).isSome = true) :
    Conduct session command (next, .quiet answer output) where
  failed := by
    have hfails : ¬ command.Fails answer := fun hfails => by
      cases hfails with
      | answer _ hfailure =>
          rw [hanswer] at hfailure
          cases hfailure
      | report => cases hreport
    simp [Reply.quiet, hfailed, hfails]
  failure hfailure := by
    rw [show (Reply.quiet answer output).answer = answer from rfl, hanswer] at hfailure
    cases hfailure
  success _ _ := ⟨rfl, rfl⟩
  output := houtput
  emitted := hemitted

/-- The conduct of a command that loads the text of a reader. -/
theorem Conduct.ofReader {name : String} {reader : Reader}
    (hreport : command.isReport = false)
    (hwritten : session.written? command = none) :
    Conduct session command (session.addFrom name reader) := by
  unfold addFrom
  cases reader.text with
  | ok text => exact .ofQuiet rfl rfl hreport (by rw [hwritten]; rfl) (by simp [hwritten])
  | error reason => exact .ofFailure rfl rfl hwritten

end Step

/-- Every command has its conduct. -/
theorem conduct_step (session : Session) (command : Command) :
    Conduct session command (session.step command) := by
  cases command with
  | loadText name text => exact .ofQuiet rfl rfl rfl rfl (by simp [written?])
  | load name reader => exact .ofReader rfl rfl
  | loadPath path opened =>
      cases opened with
      | ok reader => exact .ofReader rfl rfl
      | error reason => exact .ofFailure rfl rfl rfl
  | setValidateBounds value | setAllowRepeats value | setStyle value =>
      exact .ofQuiet rfl rfl rfl rfl (by simp [written?])
  | parse id =>
      simp only [step]
      cases hshape : session.shapeOf id with
      | ok shape => exact .ofQuiet rfl rfl rfl rfl (by simp [written?])
      | error diagnostic => exact .ofFailure (isFailure_of_shapeOf hshape) rfl rfl
  | emit id =>
      simp only [step]
      cases hshape : session.shapeOf id with
      | ok shape =>
          have hwritten : session.written? (.emit id) = some shape := by
            rw [written?, hshape]
            rfl
          exact .ofQuiet rfl rfl rfl (by rw [hwritten]; rfl) (by simp [hwritten])
      | error diagnostic =>
          refine .ofFailure (isFailure_of_shapeOf hshape) rfl ?_
          rw [written?, hshape]
          rfl
  | report diagnostic =>
      have hfails : Command.Fails (.report diagnostic) .done ↔
          diagnostic.severity.isFailure = true := by
        rw [Severity.isFailure_iff]
        constructor
        · intro h
          cases h with
          | answer _ hfailure => cases hfailure
          | report _ hseverity => exact hseverity
        · exact .report .done
      refine ⟨?_, fun hfailure => ?_, fun _ hreport => ?_, rfl, ?_⟩
      · simp [step, makeReport, hfails]
      · cases hfailure
      · cases hreport
      · simp [step, makeReport, written?]

/-! ## Runs -/

section Run

variable (session : Session) (commands : List Command)

/-- Commands behind others are carried out by the session that the others leave. -/
theorem run_append_fst (first second : List Command) :
    (session.run (first ++ second)).1 = ((session.run first).1.run second).1 := by
  induction first generalizing session with
  | nil => rfl
  | cons command rest ih => exact ih (session.step command).1

/-- A run has failed if the session had failed before it, or a command of it fails. -/
theorem failed_run :
    (session.run commands).1.failed = true ↔ session.failed = true ∨
      ∃ (position : Nat) (command : Command) (reply : Reply), commands[position]? = some command ∧
        (session.run commands).2[position]? = some reply ∧ command.Fails reply.answer := by
  induction commands generalizing session with
  | nil => simp [run]
  | cons command rest ih =>
      show ((session.step command).1.run rest).1.failed = true ↔ _ ∨
        ∃ (position : Nat) (other : Command) (reply : Reply),
          (command :: rest)[position]? = some other ∧
            ((session.step command).2 :: ((session.step command).1.run rest).2)[position]? =
              some reply ∧ other.Fails reply.answer
      rw [ih, (conduct_step session command).failed, or_assoc]
      -- Either the first command fails, or one of the others does.
      refine or_congr Iff.rfl (Iff.trans ?_ Nat.or_exists_add_one)
      simp

end Run

/-- A shape is read in a run as its commands say. -/
theorem shapeOf_run (before : List Command) (id : Nat) :
    ((initial.run before).1.shapeOf id).toOption = Command.shape? before id := by
  rw [shapeOf, Command.shape?, ← files_initial, ← options_initial, Array.getElem?_toList]
  cases (initial.run before).1.files[id]? with
  | none => rfl
  | some file =>
      by_cases hsize : maxSourceSize < file.text.utf8ByteSize
      · simp [hsize, Except.toOption]
      · cases hparse : Shape.parse (initial.run before).1.options file.text <;>
          simp [hsize, hparse, Except.toOption]

/-- A command writes the shape in a run that its commands say. -/
theorem written?_run (before : List Command) (command : Command) :
    (initial.run before).1.written? command = command.written? before := by
  cases command with
  | emit id => exact shapeOf_run before id
  | _ => rfl

/-! ## Every point of a run -/

/-- In the run of commands from the beginning, the command at a position gets a reply. -/
def Replies (commands : List Command) (position : Nat) (command : Command) (reply : Reply) : Prop :=
  commands[position]? = some command ∧ (initial.run commands).2[position]? = some reply

/-- The session behind the commands before a position. -/
def before (commands : List Command) (position : Nat) : Session :=
  (initial.run (commands.take position)).1

/-- The text that is written to the output in a run from the beginning. -/
def written (commands : List Command) : String :=
  String.join ((initial.run commands).2.map Reply.output)

/-- At every point, the status of a run, its reports and its output are those that the commands and
the answers to them say. -/
structure Accountable (commands : List Command) : Prop where
  /-- The status is an error if an earlier command failed: a load, a reading, or the report of an
  error or a bug. -/
  status : ∀ position, (before commands position).status = .error ↔
    ∃ earlier < position, ∃ command reply,
      Replies commands earlier command reply ∧ command.Fails reply.answer
  /-- An error stays. -/
  lasting : ∀ earlier later, earlier ≤ later → (before commands earlier).status = .error →
    (before commands later).status = .error
  /-- A setting leaves the status. -/
  settings : ∀ position command, commands[position]? = some command → command.isSetting = true →
    (before commands (position + 1)).status = (before commands position).status
  /-- The output holds the lines of the shapes that are written, and nothing else. -/
  output : written commands = String.join ((Command.shapesWritten commands).map Shape.line)
  /-- A shape is written by the commands that answer so. -/
  emitted : ∀ position command reply, Replies commands position command reply →
    (reply.answer = .emitted .ok ↔ (command.written? (commands.take position)).isSome = true)
  /-- A load is answered with the number of loads before it that succeeded, and a load that fails
  with none. -/
  loaded : ∀ position command reply, Replies commands position command reply →
    command.isLoad = true → reply.answer = .loaded
      (command.file?.map fun _ => (Command.files (commands.take position)).length)
  /-- A shape that is read is the answer, and a number without a shape is answered with none. -/
  parsed : ∀ position id reply, Replies commands position (.parse id) reply →
    reply.answer = .parsed (Command.shape? (commands.take position) id)
  /-- No shape is written exactly where none would be read. -/
  refused : ∀ position id reply, Replies commands position (.emit id) reply →
    (reply.answer = .emitted .error ↔
      ((before commands position).step (.parse id)).2.answer = .parsed none)
  /-- A load or a reading that fails makes one report of a failure, which is rendered, and writes
  nothing. -/
  failure : ∀ position command reply, Replies commands position command reply →
    reply.answer.isFailure = true → ∃ diagnostic : Diagnostic Place,
      reply.reports = [diagnostic] ∧ diagnostic.severity.isFailure = true ∧
        reply.errors = diagnostic.render (before commands position).style ∧ reply.output = ""
  /-- A load or a reading that succeeds makes no report, and neither does a setting. -/
  success : ∀ position command reply, Replies commands position command reply →
    reply.answer.isFailure = false → command.isReport = false →
      reply.reports = [] ∧ reply.errors = ""

section Points

variable {commands : List Command} {position : Nat} {command : Command} {reply : Reply}

/-- The reply at a position is that of the session before it. -/
theorem replies_iff :
    Replies commands position command reply ↔ commands[position]? = some command ∧
      ((before commands position).step command).2 = reply := by
  refine and_congr_right fun hcommand => ?_
  rw [getElem?_run, hcommand]
  simp [before]

/-- A command leads from the session before it to the session behind it. -/
theorem before_succ (hcommand : commands[position]? = some command) :
    before commands (position + 1) = ((before commands position).step command).1 := by
  rw [before, List.take_add_one, hcommand, run_append_fst]
  rfl

/-- The replies to the first commands of a run do not depend on the others. -/
theorem replies_take_iff {count : Nat} :
    Replies (commands.take count) position command reply ↔
      position < count ∧ Replies commands position command reply := by
  by_cases hlt : position < count
  · rw [replies_iff, replies_iff, before, before, List.take_take, List.getElem?_take,
      if_pos hlt, Nat.min_eq_left (Nat.le_of_lt hlt)]
    simp [hlt]
  · rw [replies_iff, List.getElem?_take, if_neg hlt]
    simp [hlt]

/-- The session has failed before a position if an earlier command failed. -/
theorem status_before_iff (commands : List Command) (position : Nat) :
    (before commands position).status = .error ↔ ∃ earlier < position, ∃ command reply,
      Replies commands earlier command reply ∧ command.Fails reply.answer := by
  have hstatus : (before commands position).status = .error ↔
      (before commands position).failed = true := by
    unfold status
    cases (before commands position).failed <;> simp
  rw [hstatus, before, failed_run]
  constructor
  · intro h
    obtain hinitial | ⟨earlier, command, reply, hcommand, hreply, hfails⟩ := h
    · cases hinitial
    · obtain ⟨hlt, hreplies⟩ := replies_take_iff.1 ⟨hcommand, hreply⟩
      exact ⟨earlier, hlt, command, reply, hreplies, hfails⟩
  · intro h
    obtain ⟨earlier, hlt, command, reply, hreplies, hfails⟩ := h
    obtain ⟨hcommand, hreply⟩ := replies_take_iff.2 ⟨hlt, hreplies⟩
    exact .inr ⟨earlier, command, reply, hcommand, hreply, hfails⟩

/-- A setting leaves the status of a session. -/
theorem status_setting (session : Session) (h : command.isSetting = true) :
    (session.step command).1.status = session.status := by
  cases command with
  | setValidateBounds | setAllowRepeats | setStyle => rfl
  | loadText | load | loadPath | parse | emit | report => cases h

/-- A load is answered with a number or with none. -/
theorem answer_load (session : Session) (h : command.isLoad = true) :
    (session.step command).2.answer = .loaded (session.step command).2.answer.id? := by
  cases command with
  | loadText name text => rfl
  | load name reader =>
      simp only [step, addFrom]
      cases reader.text <;> rfl
  | loadPath path opened =>
      cases opened with
      | ok reader =>
          simp only [step, addFrom]
          cases reader.text <;> rfl
      | error reason => rfl
  | setValidateBounds | setAllowRepeats | setStyle | parse | emit | report => cases h

/-- The output of each command of a run is the line of the shape that the commands say. -/
theorem outputs_run (commands : List Command) :
    (initial.run commands).2.map Reply.output = (List.range commands.length).map fun position =>
      (commands[position]?.bind (Command.written? (commands.take position))).elim ""
        Shape.line := by
  refine List.ext_getElem? fun position => ?_
  rw [List.getElem?_map, List.getElem?_map, getElem?_run]
  by_cases hlt : position < commands.length
  · rw [List.getElem?_eq_getElem hlt, List.getElem?_range hlt]
    simp only [Option.map_some, Option.some.injEq]
    rw [(conduct_step _ _).output, written?_run, List.getElem?_eq_getElem hlt]
    rfl
  · rw [List.getElem?_eq_none (Nat.le_of_not_lt hlt)]
    simp [Nat.le_of_not_lt hlt]

end Points

/-- The status of a session, its reports and its output follow from its commands and the answers to
them. The status is an error exactly when an earlier load or reading failed, or a report was made of
an error or a bug; it stays so, whatever is set. A load is answered with a number exactly when it
succeeds. The output holds the printed shape of each command that writes one, with a line feed. Each
load and each reading that fails makes one report and writes nothing, and those that succeed make
none. -/
theorem run_accountable (commands : List Command) : Accountable commands where
  status := status_before_iff commands
  lasting earlier later hle h := by
    obtain ⟨failing, hlt, command, reply, hreplies, hfails⟩ := (status_before_iff _ _).1 h
    exact (status_before_iff _ _).2
      ⟨failing, Nat.lt_of_lt_of_le hlt hle, command, reply, hreplies, hfails⟩
  settings position command hcommand hsetting := by
    rw [before_succ hcommand, status_setting _ hsetting]
  output := by
    rw [written, outputs_run, Command.shapesWritten]
    exact join_map_elim (fun position => commands[position]?.bind
      (Command.written? (commands.take position))) Shape.line _
  emitted position command reply h := by
    obtain ⟨-, rfl⟩ := replies_iff.1 h
    rw [(conduct_step _ _).emitted, before, written?_run]
  loaded position command reply h hload := by
    obtain ⟨-, rfl⟩ := replies_iff.1 h
    rw [answer_load _ hload, (effect_step _ command).id, before, ← files_initial,
      Array.length_toList]
  parsed position id reply h := by
    obtain ⟨-, rfl⟩ := replies_iff.1 h
    rw [← shapeOf_run]
    simp only [step, before]
    cases (initial.run (commands.take position)).1.shapeOf id <;> rfl
  refused position id reply h := by
    obtain ⟨-, rfl⟩ := replies_iff.1 h
    simp only [step]
    cases (before commands position).shapeOf id <;> simp [Reply.quiet, makeReport]
  failure position command reply h hfailure := by
    obtain ⟨-, rfl⟩ := replies_iff.1 h
    exact (conduct_step _ _).failure hfailure
  success position command reply h hsuccess hreport := by
    obtain ⟨-, rfl⟩ := replies_iff.1 h
    exact (conduct_step _ _).success hsuccess hreport

end Session

end ArrayShape
