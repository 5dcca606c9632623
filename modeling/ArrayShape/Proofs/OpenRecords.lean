import ArrayShape.Tree.Descent

/-!
# Records that are open

A reader counts the records that are open up and down again. `Leaves` tells how many are open where
a reader stops, and there is one lemma for each reader: it closes the records that it opens.
-/

namespace ArrayShape

section Results

variable {ε α β : Type}

/-- Two readers that go on alike behind what was read are alike. -/
theorem bind_congr_of_ok {read : Except ε α} {first second : α → Except ε β}
    (h : ∀ value, read = .ok value → first value = second value) :
    read >>= first = read >>= second := by
  cases read with
  | error error => rfl
  | ok value => exact h value rfl

/-- A reader that goes on behind something has read it. -/
theorem exists_of_bind_eq_ok {read : Except ε α} {following : α → Except ε β} {result : β}
    (h : read >>= following = .ok result) :
    ∃ value, read = .ok value ∧ following value = .ok result := by
  cases read with
  | error error => cases h
  | ok value => exact ⟨value, rfl, h⟩

end Results

/-- Where a reader stops, this many records are open. -/
def Leaves {α : Type} {start : Cursor} (count : Nat) (read : Except ParseError (Reading α start)) :
    Prop :=
  ∀ reading, read = .ok reading → reading.stop.openRecords = count

namespace Leaves

variable {α β : Type} {start base : Cursor} {count other : Nat}

theorem of_ok {reading : Reading α start} (h : reading.stop.openRecords = count) :
    Leaves count (.ok reading) := by
  intro result hresult
  cases hresult
  exact h

theorem of_error (error : ParseError) :
    Leaves count (.error error : Except ParseError (Reading α start)) := by
  intro result hresult
  cases hresult

/-- A reader goes on behind another one. -/
theorem bind {read : Except ParseError (Reading α base)}
    {next : Reading α base → Except ParseError (Reading β start)} (h : Leaves other read)
    (hnext : ∀ reading, reading.stop.openRecords = other → Leaves count (next reading)) :
    Leaves count (read >>= next) := by
  intro result hresult
  obtain ⟨reading, hreading, hresult⟩ := exists_of_bind_eq_ok hresult
  exact hnext reading (h reading hreading) result hresult

/-- A reader looks at something that does not move it. -/
theorem bind_value {read : Except ParseError α}
    {next : α → Except ParseError (Reading β start)} (h : ∀ value, Leaves count (next value)) :
    Leaves count (read >>= next) := by
  intro result hresult
  obtain ⟨value, -, hresult⟩ := exists_of_bind_eq_ok hresult
  exact h value result hresult

end Leaves

namespace Cursor

variable {endPosition : Nat} {start base : Cursor}

/-! ## Tokens -/

theorem leaves_token (atEnd : ParseError) (start : Cursor) :
    Leaves start.openRecords (token atEnd start) := by
  obtain ⟨items, count⟩ := start
  match items with
  | [] => exact .of_error _
  | .stray _ :: _ => exact .of_error _
  | .token _ _ :: _ => exact .of_ok rfl

theorem openRecords_of_comma {comma : Reading ByteRange start}
    (h : comma? start = .ok (some comma)) : comma.stop.openRecords = start.openRecords := by
  obtain ⟨items, count⟩ := start
  match items with
  | [] => cases h
  | .stray _ :: _ => cases h
  | .token found _ :: _ =>
      cases found with
      | comma =>
          cases h
          rfl
      | _ => cases h

/-- A reader goes on behind a comma, or where none is next. -/
theorem leaves_comma_bind {α : Type} {count : Nat}
    {next : Option (Reading ByteRange base) → Except ParseError (Reading α start)}
    (hnone : Leaves count (next none))
    (hsome : ∀ comma, comma.stop.openRecords = base.openRecords →
      Leaves count (next (some comma))) :
    Leaves count (comma? base >>= next) := by
  intro result hresult
  obtain ⟨comma, hcomma, hresult⟩ := exists_of_bind_eq_ok hresult
  cases comma with
  | none => exact hnone result hresult
  | some comma => exact hsome comma (openRecords_of_comma hcomma) result hresult

theorem leaves_closeParen (opening : ByteRange) (start : Cursor) :
    Leaves start.openRecords (closeParen endPosition opening start) := by
  refine (leaves_token _ start).bind fun next hnext => ?_
  split
  · exact .of_ok hnext
  · exact .of_error _
  · exact .of_error _

theorem leaves_mark (wanted : Token) (alternative : Expected) (start : Cursor) :
    Leaves start.openRecords (mark endPosition wanted alternative start) := by
  refine (leaves_token _ start).bind fun next hnext => ?_
  split
  · exact .of_ok hnext
  · exact .of_error _

theorem leaves_number (start : Cursor) : Leaves start.openRecords (number endPosition start) := by
  refine (leaves_token _ start).bind fun next hnext => ?_
  split
  · exact .bind_value fun value => .of_ok hnext
  · exact .of_error _

theorem leaves_label (start : Cursor) :
    Leaves start.openRecords (label endPosition .texts start) := by
  refine (leaves_token _ start).bind fun next hnext => ?_
  split
  · exact .of_ok hnext
  · exact .of_ok hnext
  · exact .of_error _

/-! ## Arguments of enumerations and ranges -/

theorem leaves_numbers (start : Cursor) : Leaves start.openRecords (numbers endPosition start) := by
  unfold numbers
  refine (leaves_number start).bind fun first hfirst => ?_
  refine leaves_comma_bind (.of_ok hfirst) fun comma hcomma => ?_
  have hshorter : comma.stop.items.length < start.items.length :=
    Nat.lt_trans comma.shorter first.shorter
  refine (leaves_numbers comma.stop).bind fun others hothers => ?_
  exact .of_ok (hothers.trans (hcomma.trans hfirst))
termination_by start.items.length

theorem leaves_enum (keyword : ByteRange) (start : Cursor) :
    Leaves start.openRecords
      (enum endPosition keyword start : Except ParseError (Reading (Term String) start)) := by
  refine (leaves_mark _ _ start).bind fun opening hopening => ?_
  refine (leaves_numbers opening.stop).bind fun values hvalues => ?_
  refine (leaves_closeParen _ values.stop).bind fun closing hclosing => ?_
  exact .of_ok (hclosing.trans (hvalues.trans hopening))

theorem leaves_var (keyword : ByteRange) (start : Cursor) :
    Leaves start.openRecords
      (var endPosition keyword start : Except ParseError (Reading (Term String) start)) := by
  refine (leaves_mark _ _ start).bind fun opening hopening => ?_
  refine (leaves_number opening.stop).bind fun lower hlower => ?_
  refine (leaves_mark _ _ lower.stop).bind fun comma hcomma => ?_
  refine (leaves_number comma.stop).bind fun upper hupper => ?_
  refine (leaves_closeParen _ upper.stop).bind fun closing hclosing => ?_
  exact .of_ok (hclosing.trans (hupper.trans (hcomma.trans (hlower.trans hopening))))

end Cursor

/-! ## Operands -/

namespace Descent

open Cursor

variable {endPosition : Nat}

mutual
theorem leaves_operand (start : Cursor) :
    Leaves start.openRecords (operand .texts endPosition start) := by
  unfold operand
  refine (leaves_token _ start).bind fun first hfirst => ?_
  have hshorter := first.shorter
  split
  · exact .bind_value fun value => .of_ok hfirst
  · refine .bind_value fun next => ?_
    split
    · exact .of_error _
    · exact .of_ok hfirst
  · exact (leaves_record _ first.stop).bind fun term hterm => .of_ok (hterm.trans hfirst)
  · exact (leaves_enum _ first.stop).bind fun term hterm => .of_ok (hterm.trans hfirst)
  · exact (leaves_var _ first.stop).bind fun term hterm => .of_ok (hterm.trans hfirst)
  · refine (leaves_operands first.stop).bind fun members hmembers => ?_
    refine (leaves_closeParen _ members.stop).bind fun closing hclosing => ?_
    exact .of_ok (hclosing.trans (hmembers.trans hfirst))
  · exact .of_error _
termination_by (start.items.length, 0)

theorem leaves_operands (start : Cursor) :
    Leaves start.openRecords (operands .texts endPosition start) := by
  unfold operands
  refine (leaves_operand start).bind fun first hfirst => ?_
  refine leaves_comma_bind (.of_ok hfirst) fun comma hcomma => ?_
  have hshorter : comma.stop.items.length < start.items.length :=
    Nat.lt_trans comma.shorter first.shorter
  refine (leaves_operands comma.stop).bind fun others hothers => ?_
  exact .of_ok (hothers.trans (hcomma.trans hfirst))
termination_by (start.items.length, 1)

/-- The record that is opened in front of the fields is closed behind them. -/
theorem leaves_record (keyword : ByteRange) (start : Cursor) :
    Leaves start.openRecords (record .texts endPosition keyword start) := by
  unfold record
  split
  · exact .of_error _
  · refine (leaves_mark _ _ start).bind fun opening hopening => ?_
    have hshorter : opening.stop.items.length < start.items.length := opening.shorter
    refine (leaves_fields opening.stop.enterRecord).bind fun list hlist => ?_
    refine (leaves_closeParen _ list.stop.leaveRecord).bind fun closing hclosing => .of_ok ?_
    show closing.stop.openRecords = start.openRecords
    calc closing.stop.openRecords = list.stop.openRecords - 1 := hclosing
      _ = opening.stop.openRecords + 1 - 1 := congrArg (· - 1) hlist
      _ = start.openRecords := hopening
termination_by (start.items.length, 0)

theorem leaves_fields (start : Cursor) :
    Leaves start.openRecords (fields .texts endPosition start) := by
  unfold fields
  refine (leaves_field start).bind fun first hfirst => ?_
  refine leaves_comma_bind (.of_ok hfirst) fun comma hcomma => ?_
  have hshorter : comma.stop.items.length < start.items.length :=
    Nat.lt_trans comma.shorter first.shorter
  refine (leaves_fields comma.stop).bind fun others hothers => ?_
  exact .of_ok (hothers.trans (hcomma.trans hfirst))
termination_by (start.items.length, 1)

theorem leaves_field (start : Cursor) :
    Leaves start.openRecords (field .texts endPosition start) := by
  unfold field
  refine (leaves_label start).bind fun label hlabel => ?_
  refine (leaves_mark _ _ label.stop).bind fun equals hequals => ?_
  have hshorter : equals.stop.items.length < start.items.length :=
    Nat.lt_trans equals.shorter label.shorter
  refine (leaves_operand equals.stop).bind fun type htype => ?_
  exact .of_ok (htype.trans (hequals.trans hlabel))
termination_by (start.items.length, 0)
end

end Descent

end ArrayShape
