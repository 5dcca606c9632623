import ArrayShape.Session.Command

/-!
# Sessions over runs of commands

The answers of a session follow from the commands before them (`Session.run_faithful`). What one
command does is said once (`Session.effect_step`), and the run lemmas say what all of them do: texts
are only added, under the next number, and by the loads that succeed; an option is as the last
command left it that set it. A text is read as it was loaded, whatever was done in between.
-/

namespace ArrayShape

/-! ## What commands say by themselves -/

namespace Command

/-- The text that a command loads, with its name. A load fails if the file does not open, and if the
reader fails or delivers bytes that are not valid. -/
def file? : Command → Option SourceFile
  | .loadText name text => some ⟨name, text⟩
  | .load name reader | .loadPath name (.ok reader) => reader.text.toOption.map (SourceFile.mk name)
  | .loadPath _ (.error _) | .setValidateBounds _ | .setAllowRepeats _ | .setStyle _ | .parse _
  | .emit _ | .report _ => none

/-- Whether bounds are checked, where a command sets it. -/
def validateBounds? : Command → Option Bool
  | .setValidateBounds value => some value
  | _ => none

/-- Whether labels may be repeated, where a command sets it. -/
def allowRepeats? : Command → Option Bool
  | .setAllowRepeats value => some value
  | _ => none

/-- The options that commands set last. Both checks are on until a command sets them. -/
def lastOptions (commands : List Command) : Options :=
  ⟨(commands.filterMap validateBounds?).getLast?.getD true,
    (commands.filterMap allowRepeats?).getLast?.getD false⟩

/-- The texts that commands load, in order. -/
def files (commands : List Command) : List SourceFile :=
  commands.filterMap file?

@[simp] theorem files_nil : files [] = [] := rfl

@[simp] theorem files_cons (command : Command) (rest : List Command) :
    files (command :: rest) = command.file?.toList ++ files rest := by
  rw [files, List.filterMap_cons, files]
  cases command.file? <;> rfl

@[simp] theorem files_append (first second : List Command) :
    files (first ++ second) = files first ++ files second :=
  List.filterMap_append

end Command

/-- The number of a text in an answer. -/
def Answer.id? : Answer → Option Nat
  | .loaded id => id
  | .done | .parsed _ | .emitted _ => none

/-- An answer with a number is the answer to a load. -/
theorem Answer.id?_eq_some_iff {answer : Answer} {id : Nat} :
    answer.id? = some id ↔ answer = .loaded (some id) := by
  cases answer <;> simp [id?]

namespace Session

/-! ## One command -/

/-- What a command does to the texts and the options of a session, and the number in its answer. -/
structure Effect (session : Session) (command : Command) (result : Session × Reply) : Prop where
  /-- The text that is loaded is added behind the others, and no other is changed. -/
  files : result.1.files.toList = session.files.toList ++ command.file?.toList
  /-- An option that is not set is left. -/
  options : result.1.options =
    ⟨command.validateBounds?.getD session.options.validateBounds,
      command.allowRepeats?.getD session.options.allowRepeats⟩
  /-- The number of the text that is loaded is the number of texts before it. -/
  id : result.2.answer.id? = command.file?.map fun _ => session.files.size

section Step

variable (session : Session) {command : Command}

/-- A command that loads nothing and sets no option has no effect if nothing is changed. -/
theorem Effect.unchanged {result : Session × Reply} (hfile : command.file? = none)
    (hbounds : command.validateBounds? = none) (hrepeats : command.allowRepeats? = none)
    (hfiles : result.1.files = session.files) (hoptions : result.1.options = session.options)
    (hid : result.2.answer.id? = none) : Effect session command result := by
  refine ⟨?_, ?_, ?_⟩
  · simp [hfile, hfiles]
  · simp [hbounds, hrepeats, hoptions]
  · simp [hfile, hid]

/-- The effect of a command that loads a text. -/
theorem Effect.addText {name text : String} (hfile : command.file? = some ⟨name, text⟩)
    (hbounds : command.validateBounds? = none) (hrepeats : command.allowRepeats? = none) :
    Effect session command (session.addText name text) := by
  refine ⟨?_, ?_, ?_⟩
  · simp [Session.addText, hfile]
  · simp [Session.addText, hbounds, hrepeats]
  · rw [hfile]
    rfl

/-- The effect of a command that loads the text of a reader. -/
theorem Effect.addFrom {name : String} {reader : Reader}
    (hfile : command.file? = reader.text.toOption.map (SourceFile.mk name))
    (hbounds : command.validateBounds? = none) (hrepeats : command.allowRepeats? = none) :
    Effect session command (session.addFrom name reader) := by
  unfold Session.addFrom
  cases htext : reader.text with
  | ok text =>
      rw [htext] at hfile
      exact .addText session hfile hbounds hrepeats
  | error reason =>
      rw [htext] at hfile
      exact .unchanged session hfile hbounds hrepeats rfl rfl rfl

/-- Every command has the effect that it says. -/
theorem effect_step (command : Command) : Effect session command (session.step command) := by
  cases command with
  | loadText name text => exact .addText session rfl rfl rfl
  | load name reader => exact .addFrom session rfl rfl rfl
  | loadPath path opened =>
      cases opened with
      | ok reader => exact .addFrom session rfl rfl rfl
      | error reason => exact .unchanged session rfl rfl rfl rfl rfl rfl
  | setValidateBounds value | setAllowRepeats value =>
      exact ⟨(List.append_nil _).symm, rfl, rfl⟩
  | setStyle style | report diagnostic => exact .unchanged session rfl rfl rfl rfl rfl rfl
  | parse id | emit id =>
      simp only [step]
      cases session.shapeOf id with
      | ok shape => exact .unchanged session rfl rfl rfl rfl rfl rfl
      | error diagnostic => exact .unchanged session rfl rfl rfl rfl rfl rfl

end Step

/-- A text is read with the options of the session, if it has the number and is not too long. -/
theorem shapeOf_eq_ok_iff {session : Session} {id : Nat} {shape : Shape String} :
    session.shapeOf id = .ok shape ↔
      ∃ file, session.files.toList[id]? = some file ∧ file.text.utf8ByteSize ≤ maxSourceSize ∧
        Shape.parse session.options file.text = .ok shape := by
  rw [Array.getElem?_toList]
  unfold shapeOf
  cases session.files[id]? with
  | none => simp
  | some file =>
      by_cases hsize : maxSourceSize < file.text.utf8ByteSize
      · simp [hsize, Nat.not_le.2 hsize]
      · cases hparse : Shape.parse session.options file.text <;>
          simp [hsize, Nat.not_lt.1 hsize, hparse]

/-- A shape that is read is the answer. -/
theorem answer_parse_iff {session : Session} {id : Nat} {shape : Shape String} :
    (session.step (.parse id)).2.answer = .parsed (some shape) ↔
      session.shapeOf id = .ok shape := by
  simp only [step]
  cases session.shapeOf id <;> simp [makeReport, Reply.quiet]

/-! ## Runs -/

section Run

variable (session : Session) (commands : List Command)

/-- The texts that a run loads stand behind the others, in order. -/
theorem files_run :
    (session.run commands).1.files.toList = session.files.toList ++ Command.files commands := by
  induction commands generalizing session with
  | nil => simp [run]
  | cons command rest ih =>
      show ((session.step command).1.run rest).1.files.toList = _
      rw [ih, (effect_step session command).files, List.append_assoc, Command.files_cons]

/-- The numbers in the replies of a run are those behind the texts before it, in order. -/
theorem ids_run :
    (session.run commands).2.filterMap (·.answer.id?) =
      List.range' session.files.size (Command.files commands).length := by
  induction commands generalizing session with
  | nil => simp [run]
  | cons command rest ih =>
      have heffect := effect_step session command
      have hsize : (session.step command).1.files.size =
          session.files.size + command.file?.toList.length := by
        rw [← Array.length_toList, heffect.files, List.length_append, Array.length_toList]
      show (((session.step command).2 :: ((session.step command).1.run rest).2).filterMap
        fun reply => reply.answer.id?) = _
      rw [List.filterMap_cons, ih, hsize, heffect.id, Command.files_cons]
      cases command.file? with
      | none => simp
      | some file => simp [List.range'_succ]

/-- An option is as the last command of a run left it that set it. -/
theorem options_run :
    (session.run commands).1.options =
      ⟨(commands.filterMap Command.validateBounds?).getLast?.getD session.options.validateBounds,
        (commands.filterMap Command.allowRepeats?).getLast?.getD
          session.options.allowRepeats⟩ := by
  induction commands generalizing session with
  | nil => rfl
  | cons command rest ih =>
      show ((session.step command).1.run rest).1.options = _
      rw [ih, (effect_step session command).options]
      cases hbounds : command.validateBounds? <;> cases hrepeats : command.allowRepeats? <;>
        simp [hbounds, hrepeats, List.getLast?_cons]

/-- The reply to each command of a run is that of the session behind the commands before it. -/
theorem getElem?_run (position : Nat) :
    (session.run commands).2[position]? = commands[position]?.map fun command =>
      ((session.run (commands.take position)).1.step command).2 := by
  induction commands generalizing session position with
  | nil => simp [run]
  | cons command rest ih =>
      cases position with
      | zero => rfl
      | succ position => exact ih (session.step command).1 position

end Run

/-! ## Every point of a run -/

/-- In the run of commands from the beginning, the command at a position gets an answer. -/
def Answers (commands : List Command) (position : Nat) (command : Command) (answer : Answer) :
    Prop :=
  commands[position]? = some command ∧
    ((initial.run commands).2[position]?).map Reply.answer = some answer

/-- At every point, the texts of a run and the answers in it are those that the commands say. -/
structure Faithful (commands : List Command) : Prop where
  /-- The numbers that are answered count the loads that succeed. -/
  ids : (initial.run commands).2.filterMap (·.answer.id?) =
    List.range (Command.files commands).length
  /-- A load that succeeds is answered with the number of such loads before it. A load that fails,
  and any other command, is answered with no number. -/
  loads : ∀ position command answer, Answers commands position command answer →
    answer.id? = command.file?.map fun _ => (Command.files (commands.take position)).length
  /-- A load that succeeds adds its text and changes no other. A load that fails, and any other
  command, changes no text. -/
  files : ∀ position command, commands[position]? = some command →
    (initial.run (commands.take (position + 1))).1.files.toList =
      (initial.run (commands.take position)).1.files.toList ++ command.file?.toList
  /-- A shape is answered if the number was answered to an earlier load, the text that was loaded is
  not too long, and it is read as the shape with the options that were set last. -/
  parses : ∀ position id shape,
    Answers commands position (.parse id) (.parsed (some shape)) ↔
      commands[position]? = some (.parse id) ∧ ∃ earlier < position, ∃ load file,
        Answers commands earlier load (.loaded (some id)) ∧ load.file? = some file ∧
          file.text.utf8ByteSize ≤ maxSourceSize ∧
            Shape.parse (Command.lastOptions (commands.take position)) file.text = .ok shape

/-- The answer at a position is that of the session behind the commands before it. -/
theorem answers_iff {commands : List Command} {position : Nat} {command : Command}
    {answer : Answer} :
    Answers commands position command answer ↔ commands[position]? = some command ∧
      ((initial.run (commands.take position)).1.step command).2.answer = answer := by
  refine and_congr_right fun hcommand => ?_
  rw [getElem?_run, hcommand]
  simp

section Initial

variable (commands : List Command)

/-- The texts of a run are those that its commands load. -/
theorem files_initial : (initial.run commands).1.files.toList = Command.files commands :=
  files_run initial commands

/-- The options of a run are those that its commands set last. -/
theorem options_initial : (initial.run commands).1.options = Command.lastOptions commands :=
  options_run initial commands

end Initial

/-- The texts that commands load are numbered by the loads. -/
theorem getElem?_files_iff {commands : List Command} {id : Nat} {file : SourceFile} :
    (Command.files commands)[id]? = some file ↔ ∃ earlier load,
      commands[earlier]? = some load ∧ load.file? = some file ∧
        (Command.files (commands.take earlier)).length = id := by
  induction commands generalizing id with
  | nil => simp
  | cons command rest ih =>
      -- Either the first command loaded the text, or one of the others did.
      rw [Command.files_cons, ← Nat.or_exists_add_one]
      simp only [List.getElem?_cons_succ, List.take_succ_cons, Command.files_cons,
        List.length_append]
      cases hfile : command.file? with
      | none => simp [hfile, ih]
      | some first =>
          cases id with
          | zero => simp [hfile]
          | succ id => simp [ih, Nat.add_comm 1]

/-- A text with a number in a run was loaded by an earlier command that was answered with the
number. -/
theorem exists_load_iff {commands : List Command} {position id : Nat} {file : SourceFile} :
    (Command.files (commands.take position))[id]? = some file ↔ ∃ earlier < position, ∃ load,
      Answers commands earlier load (.loaded (some id)) ∧ load.file? = some file := by
  have hanswers {earlier : Nat} {load : Command} (hload : commands[earlier]? = some load)
      (hfile : load.file? = some file) :
      Answers commands earlier load (.loaded (some id)) ↔
        (Command.files (commands.take earlier)).length = id := by
    rw [answers_iff, ← Answer.id?_eq_some_iff, (effect_step _ load).id, hfile, ← files_initial,
      Array.length_toList]
    simp [hload]
  rw [getElem?_files_iff]
  constructor
  · intro h
    obtain ⟨earlier, load, hload, hfile, hlength⟩ := h
    have hlt : earlier < position := by
      refine Nat.lt_of_not_le fun hle => ?_
      rw [List.getElem?_take, if_neg (Nat.not_lt.2 hle)] at hload
      cases hload
    rw [List.getElem?_take, if_pos hlt] at hload
    rw [List.take_take, Nat.min_eq_left (Nat.le_of_lt hlt)] at hlength
    exact ⟨earlier, hlt, load, (hanswers hload hfile).2 hlength, hfile⟩
  · intro h
    obtain ⟨earlier, hlt, load, hload, hfile⟩ := h
    refine ⟨earlier, load, by rw [List.getElem?_take, if_pos hlt, hload.1], hfile, ?_⟩
    rw [List.take_take, Nat.min_eq_left (Nat.le_of_lt hlt)]
    exact (hanswers hload.1 hfile).1 hload

/-- The answers of a session follow from its commands. Its texts are numbered from zero by the loads
that succeed, a load that fails changes nothing, and a shape is answered exactly when the number was
answered to an earlier load whose text, as it was loaded and with the options that were set last, is
read as the shape. -/
theorem run_faithful (commands : List Command) : Faithful commands := by
  refine ⟨?_, fun position command answer h => ?_, fun position command hcommand => ?_,
    fun position id shape => ?_⟩
  · rw [ids_run, List.range_eq_range']
    rfl
  · obtain ⟨-, rfl⟩ := answers_iff.1 h
    rw [(effect_step _ command).id, ← files_initial, Array.length_toList]
  · rw [files_initial, files_initial, List.take_add_one, hcommand]
    simp
  · rw [answers_iff, answer_parse_iff, shapeOf_eq_ok_iff, files_initial, options_initial]
    refine and_congr_right fun _ => ?_
    constructor
    · intro h
      obtain ⟨file, hfile, hsize, hparse⟩ := h
      obtain ⟨earlier, hlt, load, hload, hloaded⟩ := exists_load_iff.1 hfile
      exact ⟨earlier, hlt, load, file, hload, hloaded, hsize, hparse⟩
    · intro h
      obtain ⟨earlier, hlt, load, file, hload, hloaded, hsize, hparse⟩ := h
      exact ⟨file, exists_load_iff.2 ⟨earlier, hlt, load, hload, hloaded⟩, hsize, hparse⟩

/-- A load that fails takes no number. -/
example : (initial.run [.loadText "a" "3", .loadPath "b" (.error "not found"),
    .loadText "c" "N"]).2.map Reply.answer = [.loaded (some 0), .loaded none, .loaded (some 1)] :=
  rfl

end Session

end ArrayShape
