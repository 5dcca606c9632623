import ArrayShape.Proofs.OpenRecords
import ArrayShape.Proofs.Reading

/-!
# The stack of the reader is recursion

The automaton does on its stack what the functions of `ArrayShape.Tree.Descent` do by recursion.
There is one lemma for each place where the automaton reads a single token, and from these one for
each rule of the grammar: `run_operand`, `run_members` and `run_fields` hold whatever frames are
open, since a frame is what a function that waits for another has read so far. The records among the
frames are those that the cursor counts. `run_initial` is the case of no open frame.
-/

namespace ArrayShape

namespace Descent

open Grammar (openRecords openRecords_field openRecords_group)
open ArrayShape.Parser
open Cursor (token peek comma? closeParen mark number numbers enum var label leaves_label
  leaves_mark openRecords_of_comma)

variable {depth endPosition : Nat} {base : List (Term String)} {frames : List Frame}

/-! ## One place at a time -/

/-- Where a mark is awaited, the automaton reads the mark. -/
theorem run_mark (argument : Argument) (wanted : Token) (alternative : Expected)
    (following : ByteRange → State) (start : Cursor)
    (hread : ∀ found range, readArgument ⟨base, frames, .argument argument⟩ argument found range =
      if found = wanted then .ok (following range) else unexpected range found [alternative])
    (hend : endInArgument endPosition argument = .unexpectedEnd endPosition [alternative]) :
    run depth endPosition ⟨base, frames, .argument argument⟩ start.items =
      mark endPosition wanted alternative start >>= fun next =>
        run depth endPosition (following next.value) next.stop.items := by
  obtain ⟨items, count⟩ := start
  match items with
  | [] =>
      simp only [run, finish, hend]
      rfl
  | .stray range :: rest => rfl
  | .token found range :: rest =>
      simp only [run, step, hread, mark, token, pure_bind]
      by_cases h : found = wanted
      · simp [h, Except.map]
      · simp only [h, if_false]
        rfl

/-- Behind a keyword, the automaton reads an opening parenthesis. -/
theorem run_opening (reserved : Keyword) (keyword : ByteRange) (start : Cursor) :
    run depth endPosition ⟨base, frames, .argument (.opening reserved keyword)⟩ start.items =
      mark endPosition .openParen .openParen start >>= fun opening =>
        run depth endPosition
          ⟨base, frames, .argument (firstArgument ⟨keyword, opening.value⟩ reserved)⟩
          opening.stop.items :=
  run_mark (.opening reserved keyword) .openParen .openParen
    (fun range => ⟨base, frames, .argument (firstArgument ⟨keyword, range⟩ reserved)⟩) start
    (fun found range => by cases found <;> rfl) rfl

/-- Where a numeral is awaited, the automaton reads a numeral. -/
theorem run_number (argument : Argument) (following : Spanned UInt64 → Argument) (start : Cursor)
    (hread : ∀ found range, readArgument ⟨base, frames, .argument argument⟩ argument found range =
      match found with
      | .number digits =>
        match integer range digits with
        | .ok value => .ok ⟨base, frames, .argument (following value)⟩
        | .error error => .error error
      | _ => unexpected range found [.integer])
    (hend : endInArgument endPosition argument = .unexpectedEnd endPosition [.integer]) :
    run depth endPosition ⟨base, frames, .argument argument⟩ start.items =
      number endPosition start >>= fun next =>
        run depth endPosition ⟨base, frames, .argument (following next.value)⟩
          next.stop.items := by
  obtain ⟨items, count⟩ := start
  match items with
  | [] =>
      simp only [run, finish, hend]
      rfl
  | .stray range :: rest => rfl
  | .token found range :: rest =>
      simp only [run, step, hread, number, token, pure_bind]
      cases found with
      | number digits => cases hinteger : integer range digits <;> simp only [hinteger] <;> rfl
      | _ => rfl

/-- Where a label is awaited, the automaton reads a label and its equals sign. -/
theorem run_labelled (call : Call) (before : TermFields String) (start : Cursor) :
    run depth endPosition ⟨base, frames, .argument (.label call before)⟩ start.items =
      label endPosition .texts start >>= fun label =>
        mark endPosition .equals .equals label.stop >>= fun equals =>
          run depth endPosition ⟨base, .field call before label.value :: frames, .operand⟩
            equals.stop.items := by
  obtain ⟨items, count⟩ := start
  match items with
  | [] => rfl
  | .stray range :: rest => rfl
  | .token found range :: rest =>
      have hequals : ∀ text,
          run depth endPosition ⟨base, frames, .argument (.equals call before ⟨range, text⟩)⟩ rest =
            mark endPosition .equals .equals ⟨rest, count⟩ >>= fun equals =>
              run depth endPosition ⟨base, .field call before ⟨range, text⟩ :: frames, .operand⟩
                equals.stop.items :=
        fun text => run_mark (.equals call before ⟨range, text⟩) .equals .equals
          (fun _ => ⟨base, .field call before ⟨range, text⟩ :: frames, .operand⟩) ⟨rest, count⟩
          (fun found range => by cases found <;> rfl) rfl
      cases found with
      | name text => exact hequals text
      | keyword reserved => exact hequals reserved.text
      | _ => rfl

/-- What a token does where a list may go on or be closed. -/
def goOn (behindComma : State) (behindClosing : ByteRange → State) (found : Token)
    (range : ByteRange) : Except ParseError Move :=
  match found with
  | .comma => .ok (.next behindComma)
  | .closeParen => .ok (.next (behindClosing range))
  | _ => unexpected range found [.comma, .closeParen]

/-- Runs on where a list may go on or be closed: behind a comma, or else behind the parenthesis that
closes the given one. -/
def resume (depth endPosition : Nat) (opening : ByteRange) (behindComma : State)
    (behindClosing : ByteRange → State) (start : Cursor) :
    Except ParseError (List (Term String) × List Lexeme) := do
  match ← comma? start with
  | some comma => run depth endPosition behindComma comma.stop.items
  | none =>
    let closing ← closeParen endPosition opening start
    run depth endPosition (behindClosing closing.value) closing.stop.items

/-- Where a list may go on or be closed, the automaton reads a comma or the closing parenthesis. -/
theorem run_goOn (state : State) (opening : ByteRange) (behindComma : State)
    (behindClosing : ByteRange → State) (start : Cursor)
    (hstep : ∀ found range, start.items.head? = some (.token found range) →
      step depth state found range = goOn behindComma behindClosing found range)
    (hend : finish endPosition state = .error (.unclosedParen opening endPosition)) :
    run depth endPosition state start.items =
      resume depth endPosition opening behindComma behindClosing start := by
  obtain ⟨items, count⟩ := start
  match items with
  | [] =>
      simp only [run, hend]
      rfl
  | .stray range :: rest => rfl
  | .token found range :: rest =>
      simp only [run, hstep found range rfl]
      cases found <;> rfl

/-- Behind the bounds of a range, the automaton reads the closing parenthesis. -/
theorem run_closing (call : Call) (lower upper : Spanned UInt64) (start : Cursor) :
    run depth endPosition ⟨base, frames, .argument (.closing call lower upper)⟩ start.items =
      closeParen endPosition call.opening start >>= fun closing =>
        run depth endPosition
          ⟨base, frames, .complete (.var (call.keyword.merge closing.value) lower upper)⟩
          closing.stop.items := by
  obtain ⟨items, count⟩ := start
  match items with
  | [] => rfl
  | .stray range :: rest => rfl
  | .token found range :: rest => cases found <;> rfl

/-! ## Arguments of enumerations and ranges -/

/-- The values of an enumeration and its closing parenthesis. -/
theorem run_numbers (call : Call) (before : List (Spanned UInt64)) (start : Cursor) :
    run depth endPosition ⟨base, frames, .argument (.enumValue call before)⟩ start.items =
      numbers endPosition start >>= fun values =>
        closeParen endPosition call.opening values.stop >>= fun closing =>
          run depth endPosition ⟨base, frames, .complete
            (.enum (call.keyword.merge closing.value) (before.reverse ++ values.value))⟩
            closing.stop.items := by
  rw [run_number (.enumValue call before) (fun value => .enumNext call (value :: before)) start
    (fun _ _ => rfl) rfl, numbers, bind_assoc]
  refine bind_congr fun first => ?_
  rw [run_goOn ⟨base, frames, .argument (.enumNext call (first.value :: before))⟩ call.opening
    ⟨base, frames, .argument (.enumValue call (first.value :: before))⟩
    (fun range => ⟨base, frames, .complete
      (.enum (call.keyword.merge range) (first.value :: before).reverse)⟩) first.stop
    (fun found range _ => by cases found <;> rfl) rfl, resume, bind_assoc]
  refine bind_congr fun comma => ?_
  cases comma with
  | none => simp
  | some comma =>
      have hfirst := first.shorter
      have hcomma := comma.shorter
      simp [run_numbers call (first.value :: before) comma.stop]
termination_by start.items.length

/-- The arguments of an enumeration. -/
theorem run_enum (keyword : ByteRange) (start : Cursor) :
    run depth endPosition ⟨base, frames, .argument (.opening .enum keyword)⟩ start.items =
      enum endPosition keyword start >>= fun term =>
        run depth endPosition ⟨base, frames, .complete term.value⟩ term.stop.items := by
  rw [run_opening, enum, bind_assoc]
  refine bind_congr fun opening => ?_
  simp [firstArgument, run_numbers]

/-- The arguments of a bounded range. -/
theorem run_var (keyword : ByteRange) (start : Cursor) :
    run depth endPosition ⟨base, frames, .argument (.opening .var keyword)⟩ start.items =
      var endPosition keyword start >>= fun term =>
        run depth endPosition ⟨base, frames, .complete term.value⟩ term.stop.items := by
  rw [run_opening, var, bind_assoc]
  refine bind_congr fun opening => ?_
  rw [firstArgument, run_number (.lower ⟨keyword, opening.value⟩)
    (fun lower => .separator ⟨keyword, opening.value⟩ lower) opening.stop (fun _ _ => rfl) rfl,
    bind_assoc]
  refine bind_congr fun lower => ?_
  rw [run_mark (.separator ⟨keyword, opening.value⟩ lower.value) .comma .comma
    (fun _ => ⟨base, frames, .argument (.upper ⟨keyword, opening.value⟩ lower.value)⟩)
    lower.stop (fun found range => by cases found <;> rfl) rfl, bind_assoc]
  refine bind_congr fun comma => ?_
  rw [run_number (.upper ⟨keyword, opening.value⟩ lower.value)
    (fun upper => .closing ⟨keyword, opening.value⟩ lower.value upper) comma.stop
    (fun _ _ => rfl) rfl, bind_assoc]
  refine bind_congr fun upper => ?_
  simp [run_closing]

/-! ## Operands -/

/-- An enumeration is no name. -/
theorem ne_name_of_enum {keyword range : ByteRange} {text : String} {start : Cursor}
    {term : Reading (Term String) start} (h : enum endPosition keyword start = .ok term) :
    term.value ≠ .name range text := by
  obtain ⟨opening, -, h⟩ := exists_of_bind_eq_ok h
  obtain ⟨values, -, h⟩ := exists_of_bind_eq_ok h
  obtain ⟨closing, -, h⟩ := exists_of_bind_eq_ok h
  cases h
  simp

/-- A bounded range is no name. -/
theorem ne_name_of_var {keyword range : ByteRange} {text : String} {start : Cursor}
    {term : Reading (Term String) start} (h : var endPosition keyword start = .ok term) :
    term.value ≠ .name range text := by
  obtain ⟨opening, -, h⟩ := exists_of_bind_eq_ok h
  obtain ⟨lower, -, h⟩ := exists_of_bind_eq_ok h
  obtain ⟨comma, -, h⟩ := exists_of_bind_eq_ok h
  obtain ⟨upper, -, h⟩ := exists_of_bind_eq_ok h
  obtain ⟨closing, -, h⟩ := exists_of_bind_eq_ok h
  cases h
  simp

/-- A record is no name. -/
theorem ne_name_of_record {keyword range : ByteRange} {text : String} {start : Cursor}
    {term : Reading (Term String) start} (h : record .texts endPosition keyword start = .ok term) :
    term.value ≠ .name range text := by
  rw [record] at h
  split at h
  · cases h
  · obtain ⟨opening, -, h⟩ := exists_of_bind_eq_ok h
    obtain ⟨list, -, h⟩ := exists_of_bind_eq_ok h
    obtain ⟨closing, -, h⟩ := exists_of_bind_eq_ok h
    cases h
    simp

/-- No opening parenthesis follows a name that is an operand. -/
theorem not_openParen_of_name {start : Cursor} {term : Reading (Term String) start}
    (h : operand .texts endPosition start = .ok term) {range : ByteRange} {text : String}
    (hname : term.value = .name range text) (opening : ByteRange) :
    term.stop.items.head? ≠ some (.token .openParen opening) := by
  obtain ⟨items, count⟩ := start
  rw [operand] at h
  match items with
  | [] => cases h
  | .stray _ :: _ => cases h
  | .token found place :: rest =>
      simp only [token, monadLift_self, pure_bind] at h
      cases found with
      | number digits =>
          obtain ⟨value, -, h⟩ := exists_of_bind_eq_ok h
          cases h
          cases hname
      | name text =>
          cases rest with
          | nil =>
              cases h
              simp
          | cons item behind =>
              cases item with
              | stray => cases h
              | token following => cases following <;> cases h <;> simp
      | keyword reserved =>
          cases reserved with
          | enum =>
              obtain ⟨inner, henum, h⟩ := exists_of_bind_eq_ok h
              cases h
              exact (ne_name_of_enum henum hname).elim
          | record =>
              obtain ⟨inner, hrecord, h⟩ := exists_of_bind_eq_ok h
              cases h
              exact (ne_name_of_record hrecord hname).elim
          | var =>
              obtain ⟨inner, hvar, h⟩ := exists_of_bind_eq_ok h
              cases h
              exact (ne_name_of_var hvar hname).elim
      | openParen =>
          obtain ⟨members, -, h⟩ := exists_of_bind_eq_ok h
          obtain ⟨closing, -, h⟩ := exists_of_bind_eq_ok h
          cases h
          cases hname
      | _ => cases h

/-- Behind a complete operand in a frame, a comma goes on with the frame and a closing parenthesis
closes it. -/
theorem step_complete {frame : Frame} {term : Term String} {found : Token} {range : ByteRange}
    (h : found = .openParen → ∀ range text, term ≠ .name range text) :
    step depth ⟨base, frame :: frames, .complete term⟩ found range =
      goOn (readComma ⟨base, frame :: frames, .complete term⟩ term)
        (fun range => ⟨base, frames, .complete (frame.close term range)⟩) found range := by
  cases found with
  | openParen =>
      cases term with
      | name range text => exact absurd rfl (h rfl range text)
      | _ => rfl
  | _ => rfl

/-- No opening parenthesis follows a field whose type is a name. -/
theorem not_openParen_of_field {start : Cursor}
    {next : Reading (Spanned String × Term String) start}
    (h : field .texts endPosition start = .ok next) {range : ByteRange} {text : String}
    (hname : next.value.2 = .name range text) (opening : ByteRange) :
    next.stop.items.head? ≠ some (.token .openParen opening) := by
  rw [field] at h
  obtain ⟨label, -, h⟩ := exists_of_bind_eq_ok h
  obtain ⟨equals, -, h⟩ := exists_of_bind_eq_ok h
  obtain ⟨type, htype, h⟩ := exists_of_bind_eq_ok h
  cases h
  exact not_openParen_of_name htype hname opening

/-- Behind a complete operand in a frame, the automaton reads a comma or closes the frame. -/
theorem run_complete (frame : Frame) (term : Term String) (start : Cursor)
    (h : ∀ range text, term = .name range text →
      ∀ opening, start.items.head? ≠ some (.token .openParen opening)) :
    run depth endPosition ⟨base, frame :: frames, .complete term⟩ start.items =
      resume depth endPosition frame.opening
        (readComma ⟨base, frame :: frames, .complete term⟩ term)
        (fun range => ⟨base, frames, .complete (frame.close term range)⟩) start := by
  refine run_goOn _ _ _ _ _ (fun found range hfound => step_complete ?_) rfl
  intro hopen nameRange text hname
  subst hopen
  exact h nameRange text hname range hfound

/-- Behind a complete operand outside all frames, the automaton reads a comma or stops. -/
theorem run_end (term : Term String) (start : Cursor)
    (h : ∀ range text, term = .name range text →
      ∀ opening, start.items.head? ≠ some (.token .openParen opening)) :
    run depth endPosition ⟨base, [], .complete term⟩ start.items =
      comma? start >>= fun
        | some comma => run depth endPosition ⟨term :: base, [], .operand⟩ comma.stop.items
        | none => .ok ((term :: base).reverse, start.items) := by
  obtain ⟨items, count⟩ := start
  match items with
  | [] => rfl
  | .stray _ :: _ => rfl
  | .token found range :: rest =>
      cases found with
      | openParen =>
          cases term with
          | name nameRange text => exact absurd rfl (h nameRange text rfl range)
          | _ => rfl
      | _ => rfl

/-- What is read behind a closing parenthesis does not depend on how many records are counted. -/
theorem closeParen_leaveRecord {α : Type} (opening : ByteRange) (start : Cursor)
    (following : ByteRange → List Lexeme → Except ParseError α) :
    (closeParen endPosition opening start >>= fun closing =>
        following closing.value closing.stop.items) =
      closeParen endPosition opening start.leaveRecord >>= fun closing =>
        following closing.value closing.stop.items := by
  obtain ⟨items, count⟩ := start
  match items with
  | [] => rfl
  | .stray _ :: _ => rfl
  | .token found _ :: _ => cases found <;> rfl

mutual
/-- The automaton reads an operand by recursive descent. -/
theorem run_operand (frames : List Frame) (start : Cursor)
    (hopen : start.openRecords = depth + openRecords frames) :
    run depth endPosition ⟨base, frames, .operand⟩ start.items =
      operand .texts endPosition start >>= fun term =>
        run depth endPosition ⟨base, frames, .complete term.value⟩ term.stop.items := by
  rw [operand]
  match start, hopen with
  | ⟨[], _⟩, _ => rfl
  | ⟨.stray range :: rest, _⟩, _ => rfl
  | ⟨.token found range :: rest, count⟩, hopen =>
      simp only [token, monadLift_self, pure_bind]
      cases found with
      | number digits =>
          cases hinteger : integer range digits <;>
            simp [run, step, readOperand, hinteger, Except.map, bind, Except.bind, pure,
              Except.pure]
      | name text =>
          match rest with
          | [] => rfl
          | .stray _ :: _ => rfl
          | .token following _ :: _ => cases following <;> rfl
      | keyword reserved =>
          cases reserved with
          | enum =>
              simp only [bind_assoc, pure_bind]
              exact run_enum range ⟨rest, count⟩
          | record =>
              simp only [bind_assoc, pure_bind]
              exact run_record frames range ⟨rest, count⟩ hopen
          | var =>
              simp only [bind_assoc, pure_bind]
              exact run_var range ⟨rest, count⟩
      | openParen =>
          simp only [bind_assoc, pure_bind]
          exact run_members frames range [] ⟨rest, count⟩ hopen
      | _ => rfl
termination_by (start.items.length, 0)

/-- The automaton reads a record by recursive descent. -/
theorem run_record (frames : List Frame) (keyword : ByteRange) (start : Cursor)
    (hopen : start.openRecords = depth + openRecords frames) :
    run depth endPosition ⟨base, frames, .operand⟩
        (.token (.keyword .record) keyword :: start.items) =
      record .texts endPosition keyword start >>= fun term =>
        run depth endPosition ⟨base, frames, .complete term.value⟩ term.stop.items := by
  rw [record, hopen]
  by_cases hdeep : maxRecordDepth ≤ depth + openRecords frames
  · have hread : readOperand depth ⟨base, frames, .operand⟩ (.keyword .record) keyword =
        .error (.nestingTooDeep keyword) := if_pos ⟨rfl, hdeep⟩
    simp only [run, step, hread, if_pos hdeep]
    rfl
  · have hread : readOperand depth ⟨base, frames, .operand⟩ (.keyword .record) keyword =
        .ok ⟨base, frames, .argument (.opening .record keyword)⟩ :=
      if_neg fun h => hdeep h.2
    simp only [run, step, hread, if_neg hdeep, Except.map]
    rw [run_opening .record keyword start, bind_assoc]
    refine bind_congr_of_ok fun opening hopening => ?_
    have hshorter : opening.stop.items.length < start.items.length := opening.shorter
    have hcount : opening.stop.openRecords = start.openRecords :=
      leaves_mark _ _ start opening hopening
    have hfields := run_fields frames ⟨keyword, opening.value⟩ [] opening.stop.enterRecord
      (congrArg (· + 1) (hcount.trans hopen))
    refine hfields.trans ?_
    simp only [bind_assoc]
    refine bind_congr fun list => bind_congr fun closing => ?_
    rw [pure_bind]
    rfl
termination_by (start.items.length, 1)

/-- The automaton reads the members of a group and its closing parenthesis by recursive descent. -/
theorem run_members (frames : List Frame) (opening : ByteRange) (before : List (Term String))
    (start : Cursor) (hopen : start.openRecords = depth + openRecords frames) :
    run depth endPosition ⟨base, .group opening before :: frames, .operand⟩ start.items =
      operands .texts endPosition start >>= fun members =>
        closeParen endPosition opening members.stop >>= fun closing =>
          run depth endPosition ⟨base, frames, .complete
            (.group (opening.merge closing.value) (before.reverse ++ members.value))⟩
            closing.stop.items := by
  rw [run_operand (.group opening before :: frames) start (by simpa using hopen), operands,
    bind_assoc]
  refine bind_congr_of_ok fun first hfirst => ?_
  rw [run_complete (.group opening before) first.value first.stop
    fun range text hname => not_openParen_of_name hfirst hname, resume, bind_assoc]
  refine bind_congr_of_ok fun comma hcomma => ?_
  cases comma with
  | none => simp [Frame.close, Frame.opening]
  | some comma =>
      have hlength : comma.stop.items.length < start.items.length :=
        Nat.lt_trans comma.shorter first.shorter
      have hcount : comma.stop.openRecords = depth + openRecords frames :=
        (openRecords_of_comma hcomma).trans ((leaves_operand start first hfirst).trans hopen)
      simp only [readComma]
      rw [run_members frames opening (first.value :: before) comma.stop hcount, bind_assoc]
      simp
termination_by (start.items.length, 1)

/-- The automaton reads the fields of a record and its closing parenthesis by recursive descent. -/
theorem run_fields (frames : List Frame) (call : Call) (before : TermFields String)
    (start : Cursor) (hopen : start.openRecords = depth + openRecords frames + 1) :
    run depth endPosition ⟨base, frames, .argument (.label call before)⟩ start.items =
      fields .texts endPosition start >>= fun list =>
        closeParen endPosition call.opening list.stop.leaveRecord >>= fun closing =>
          run depth endPosition ⟨base, frames, .complete
            (.record (call.keyword.merge closing.value) (before.reverse ++ list.value))⟩
            closing.stop.items := by
  rw [run_field frames call before start hopen, fields, bind_assoc]
  refine bind_congr_of_ok fun first hfirst => ?_
  rw [run_complete (.field call before first.value.1) first.value.2 first.stop
    fun range text hname => not_openParen_of_field hfirst hname, resume, bind_assoc]
  refine bind_congr_of_ok fun comma hcomma => ?_
  cases comma with
  | none =>
      simp only [Frame.close, Frame.opening, pure_bind, Reading.value_map, Reading.stop_map,
        List.reverse_cons]
      exact closeParen_leaveRecord call.opening first.stop fun range items =>
        run depth endPosition ⟨base, frames, .complete
          (.record (call.keyword.merge range) (before.reverse ++ [first.value]))⟩ items
  | some comma =>
      have hlength : comma.stop.items.length < start.items.length :=
        Nat.lt_trans comma.shorter first.shorter
      have hcount : comma.stop.openRecords = depth + openRecords frames + 1 :=
        (openRecords_of_comma hcomma).trans ((leaves_field start first hfirst).trans hopen)
      simp only [readComma]
      rw [run_fields frames call (first.value :: before) comma.stop hcount, bind_assoc]
      refine bind_congr fun list => ?_
      rw [pure_bind]
      refine bind_congr fun closing => ?_
      simp
termination_by (start.items.length, 2)

/-- The automaton reads a label and the type of the field by recursive descent. -/
theorem run_field (frames : List Frame) (call : Call) (before : TermFields String)
    (start : Cursor) (hopen : start.openRecords = depth + openRecords frames + 1) :
    run depth endPosition ⟨base, frames, .argument (.label call before)⟩ start.items =
      field .texts endPosition start >>= fun next =>
        run depth endPosition
          ⟨base, .field call before next.value.1 :: frames, .complete next.value.2⟩
          next.stop.items := by
  rw [run_labelled call before start, field, bind_assoc]
  refine bind_congr_of_ok fun label hlabel => ?_
  rw [bind_assoc]
  refine bind_congr_of_ok fun equals hequals => ?_
  have hlength : equals.stop.items.length < start.items.length :=
    Nat.lt_trans equals.shorter label.shorter
  have hcount : equals.stop.openRecords = start.openRecords :=
    (leaves_mark _ _ label.stop equals hequals).trans (leaves_label start label hlabel)
  rw [run_operand (.field call before label.value :: frames) equals.stop
    (by rw [hcount, hopen, openRecords_field, Nat.add_assoc]), bind_assoc]
  refine bind_congr fun type => ?_
  rw [pure_bind]
  rfl
termination_by (start.items.length, 1)
end

/-- Outside all frames, the automaton reads a list of operands by recursive descent, and leaves what
stands behind the list. -/
theorem run_operands (base : List (Term String)) (start : Cursor)
    (hopen : start.openRecords = depth) :
    run depth endPosition ⟨base, [], .operand⟩ start.items =
      operands .texts endPosition start >>= fun list =>
        .ok (base.reverse ++ list.value, list.stop.items) := by
  rw [run_operand [] start hopen, operands, bind_assoc]
  refine bind_congr_of_ok fun first hfirst => ?_
  rw [run_end first.value first.stop fun range text hname => not_openParen_of_name hfirst hname,
    bind_assoc]
  refine bind_congr_of_ok fun comma hcomma => ?_
  cases comma with
  | none => simp
  | some comma =>
      have hlength : comma.stop.items.length < start.items.length :=
        Nat.lt_trans comma.shorter first.shorter
      have hcount : comma.stop.openRecords = depth :=
        (openRecords_of_comma hcomma).trans ((leaves_operand start first hfirst).trans hopen)
      simp only
      rw [run_operands (first.value :: base) comma.stop hcount, bind_assoc]
      simp
termination_by start.items.length

/-- The automaton reads with its stack what recursive descent reads, with the number of records that
are open around the list: the same terms up to the same place, or else the same error. -/
theorem run_initial (start : Cursor) :
    run start.openRecords endPosition .initial start.items =
      (operands .texts endPosition start).map fun list => (list.value, list.stop.items) := by
  rw [State.initial, run_operands [] start rfl]
  cases operands .texts endPosition start <;> rfl

end Descent

end ArrayShape
