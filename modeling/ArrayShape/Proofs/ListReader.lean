import ArrayShape.Proofs.Descent
import ArrayShape.Tree.ListReader

/-!
# The loop reads lists by recursion

The readers of `ArrayShape.Tree.ListReader` keep open groups on a stack, and those of
`ArrayShape.Tree.Descent` keep them in the recursion. What the loop does with a stack is what
recursion does with the list that is being read, followed by what each list that waits still needs:
its closing parenthesis, and the operands behind the group (`closeGroups`). `operands_eq_descent`
holds in every monad into which errors can be lifted, so what becomes of names does not matter, and
`operands_eq_recursion` adds that the automaton of `ArrayShape.Tree.Parser` reads the same texts.
-/

namespace ArrayShape

namespace ListReader

open Cursor (token peek comma? closeParen)

/-! ## What is next -/

/-- A token that is next is the one that is read. -/
theorem exists_of_peek {start : Cursor} {found : Token} (h : peek start = .ok (some found)) :
    ∃ (next : Reading (Token × ByteRange) start) (range : ByteRange),
      next.value = (found, range) ∧ ∀ atEnd, token atEnd start = .ok next := by
  obtain ⟨items, count⟩ := start
  match items with
  | [] => cases h
  | .stray _ :: _ => cases h
  | .token _ range :: rest =>
      cases h
      exact ⟨⟨(found, range), ⟨rest, count⟩, Nat.lt_succ_self _⟩, range, rfl, fun _ => rfl⟩

/-- What cannot be looked at cannot be read. -/
theorem token_of_peek_error {start : Cursor} {error : ParseError} (h : peek start = .error error)
    (atEnd : ParseError) : token atEnd start = .error error := by
  obtain ⟨items, count⟩ := start
  match items with
  | [] => cases h
  | .stray _ :: _ =>
      cases h
      rfl
  | .token _ _ :: _ => cases h

section Loop

variable {m : Type → Type} [Monad m] [MonadLiftT (Except ParseError) m]

/-! ## Going on behind a comma -/

section Behind

variable {α β : Type} (readList : (start : Cursor) → m (Reading (List α) start))

/-- Reads on behind a list, if a comma is next. -/
def behind {start : Cursor} (list : Reading (List α) start) : m (Reading (List α) start) := do
  match ← comma? list.stop with
  | none => return list
  | some comma =>
    let others ← readList comma.stop
    return list.after (comma.after (others.map (list.value ++ ·)))

end Behind

variable {Name : Type} {naming : Naming m Name} {endPosition : Nat}

/-- A list is its first operand with what stands behind it. -/
theorem descent_operands_eq (start : Cursor) :
    Descent.operands naming endPosition start =
      Descent.operand naming endPosition start >>= fun first =>
        behind (Descent.operands naming endPosition) (first.map ([·])) := by
  rw [Descent.operands]
  refine bind_congr fun first => bind_congr fun comma => ?_
  cases comma <;> rfl

/-- Fields are the first one with what stands behind it. -/
theorem descent_fields_eq (start : Cursor) :
    Descent.fields naming endPosition start =
      Descent.field naming endPosition start >>= fun first =>
        behind (Descent.fields naming endPosition) (first.map ([·])) := by
  rw [Descent.fields]
  refine bind_congr fun first => bind_congr fun comma => ?_
  cases comma <;> rfl

section Laws

variable [LawfulMonad m] {α β : Type} (readList : (start : Cursor) → m (Reading (List α) start))

/-- More entries in front of a list stay in front. -/
theorem behind_map_append {start : Cursor} (before : List α) (list : Reading (List α) start) :
    behind readList (list.map (before ++ ·)) =
      behind readList list >>= fun list => pure (list.map (before ++ ·)) := by
  unfold behind
  rw [bind_assoc]
  refine bind_congr fun comma => ?_
  cases comma with
  | none => rw [pure_bind]
  | some comma =>
      rw [bind_assoc]
      refine bind_congr fun others => ?_
      rw [pure_bind]
      simp [Reading.map, Reading.after]

/-- What was read in front of a list stays in front. -/
theorem behind_after {start : Cursor} (first : Reading β start)
    (list : Reading (List α) first.stop) :
    behind readList (first.after list) =
      behind readList list >>= fun list => pure (first.after list) := by
  unfold behind
  rw [bind_assoc]
  refine bind_congr fun comma => ?_
  cases comma with
  | none => rw [pure_bind]
  | some comma =>
      rw [bind_assoc]
      refine bind_congr fun others => ?_
      rw [pure_bind]
      rfl

end Laws

/-! ## The lists that wait -/

variable (naming endPosition) in
/-- Reads by recursion what lists that wait still need, the innermost first: the parenthesis that
closes the group, and the operands behind it. -/
def closeGroups {start : Cursor} :
    List (Group Name) → Reading (List (Term Name)) start → m (Reading (List (Term Name)) start)
  | [], list => return list
  | group :: outer, list => do
    let closing ← closeParen endPosition group.opening list.stop
    let next ← behind (Descent.operands naming endPosition)
      (list.after (closing.map fun closing =>
        group.before ++ [.group (group.opening.merge closing) list.value]))
    closeGroups outer next

variable [LawfulMonad m]

/-- What was read in front of the innermost list stays in front. -/
theorem closeGroups_after {α : Type} {start : Cursor} (groups : List (Group Name))
    (first : Reading α start) (list : Reading (List (Term Name)) first.stop) :
    closeGroups naming endPosition groups (first.after list) =
      closeGroups naming endPosition groups list >>= fun list => pure (first.after list) := by
  induction groups generalizing list with
  | nil => rw [closeGroups, closeGroups, pure_bind]
  | cons group outer ih =>
      rw [closeGroups, closeGroups, bind_assoc]
      refine bind_congr fun closing => ?_
      show behind _ (first.after (list.after (closing.map fun closing =>
        group.before ++ [.group (group.opening.merge closing) list.value]))) >>= _ = _
      rw [behind_after, bind_assoc, bind_assoc]
      refine bind_congr fun next => ?_
      rw [pure_bind]
      exact ih next

/-- A group is closed in front of the groups around it, and its list stands behind what is in front
of it there. -/
theorem closeGroups_cons {start : Cursor} (group : Group Name) (outer : List (Group Name))
    (list : Reading (List (Term Name)) start) :
    closeGroups naming endPosition (group :: outer) list =
      closeGroups naming endPosition [⟨group.opening, []⟩] list >>= fun list =>
        closeGroups naming endPosition outer (list.map (group.before ++ ·)) := by
  rw [closeGroups, closeGroups, bind_assoc]
  refine bind_congr fun closing => ?_
  show behind _ ((list.after (closing.map fun closing =>
    [.group (group.opening.merge closing) list.value])).map (group.before ++ ·)) >>= _ = _
  rw [behind_map_append, bind_assoc, bind_assoc]
  refine bind_congr fun next => ?_
  rw [closeGroups, pure_bind, pure_bind]

/-! ## The loop -/

variable [LawfulMonadLiftT (Except ParseError) m]

section Steps

variable {α β : Type}

/-- What is read is passed on. -/
theorem liftM_ok_bind (value : α) (next : α → m β) :
    (liftM (Except.ok value : Except ParseError α) : m α) >>= next = next value := by
  have hpure : (liftM (Except.ok value : Except ParseError α) : m α) = pure value :=
    monadLift_pure value
  rw [hpure, pure_bind]

/-- Nothing is read behind an error. -/
theorem liftM_error_bind (error : ParseError) (next : α → m β) :
    (liftM (Except.error error : Except ParseError α) : m α) >>= next =
      liftM (Except.error error : Except ParseError β) := by
  -- An error of any type is an error without a value, behind which nothing can come.
  have hempty : ∀ γ : Type, (liftM (Except.error error : Except ParseError γ) : m γ) =
      (liftM (Except.error error : Except ParseError Empty) : m Empty) >>=
        fun none => liftM (none.elim : Except ParseError γ) := by
    intro γ
    rw [← monadLift_bind]
    rfl
  rw [hempty α, hempty β, bind_assoc]
  refine bind_congr fun none => ?_
  exact none.elim

end Steps

/-- Where a parenthesis opens, recursion reads the members of the group, and then closes it and goes
on behind it. -/
theorem descent_operands_of_openParen {start : Cursor} {opening : Reading (Token × ByteRange) start}
    {range : ByteRange} (hvalue : opening.value = (.openParen, range))
    (htoken : ∀ atEnd, token atEnd start = .ok opening) :
    Descent.operands naming endPosition start =
      Descent.operands naming endPosition opening.stop >>= fun members =>
        closeGroups naming endPosition [⟨range, []⟩] (opening.after members) := by
  rw [descent_operands_eq, Descent.operand]
  simp only [htoken, liftM_ok_bind, hvalue]
  simp only [bind_assoc, pure_bind]
  refine bind_congr fun members => ?_
  rw [closeGroups]
  refine bind_congr fun closing => ?_
  simp only [closeGroups, bind_pure]
  rfl

-- The induction is on the number of items that are left. The second number of each measure orders
-- the readers that call each other before an item is taken.
set_option linter.unusedSectionVars false in
mutual
/-- A list of operands is read as recursion reads it. -/
theorem operands_eq_descent (start : Cursor) :
    operands naming endPosition start = Descent.operands naming endPosition start := by
  rw [operands, beforeOperand_eq [] [] start]
  simp only [closeGroups]
  exact bind_pure _
termination_by (start.items.length, 2)

/-- In front of an operand, the loop reads the innermost list as recursion does, and then what
waits. -/
theorem beforeOperand_eq (groups : List (Group Name)) (before : List (Term Name))
    (start : Cursor) :
    beforeOperand naming endPosition groups before start =
      Descent.operands naming endPosition start >>= fun list =>
        closeGroups naming endPosition groups (list.map (before ++ ·)) := by
  -- In front of anything but a parenthesis, both read an operand and go on behind it.
  have hoperand : (operand naming endPosition start >>= fun next =>
        afterOperand naming endPosition groups (next.map fun term => before ++ [term])) =
      Descent.operands naming endPosition start >>= fun list =>
        closeGroups naming endPosition groups (list.map (before ++ ·)) := by
    rw [operand_eq start, descent_operands_eq, bind_assoc]
    refine bind_congr fun next => ?_
    have hnext := next.shorter
    rw [afterOperand_eq groups (next.map fun term => before ++ [term])]
    show behind _ ((next.map ([·])).map (before ++ ·)) >>= _ = _
    rw [behind_map_append, bind_assoc]
    refine bind_congr fun list => ?_
    rw [pure_bind]
  rw [beforeOperand]
  cases hpeek : peek start with
  | error error =>
      rw [liftM_error_bind, descent_operands_eq, Descent.operand, token_of_peek_error hpeek,
        liftM_error_bind, liftM_error_bind, liftM_error_bind]
  | ok next =>
      rw [liftM_ok_bind]
      cases next with
      | none => exact hoperand
      | some found =>
          cases found with
          | openParen =>
              obtain ⟨opening, range, hvalue, htoken⟩ := exists_of_peek hpeek
              have hopening := opening.shorter
              rw [descent_operands_of_openParen hvalue htoken]
              simp only [htoken, liftM_ok_bind, hvalue]
              rw [beforeOperand_eq (⟨range, before⟩ :: groups) [] opening.stop, bind_assoc,
                bind_assoc]
              refine bind_congr fun members => ?_
              show (closeGroups naming endPosition (⟨range, before⟩ :: groups) members >>=
                fun list => pure (opening.after list)) = _
              rw [← closeGroups_after, closeGroups_cons]
          | _ => exact hoperand
termination_by (start.items.length, 1)

/-- Behind an operand, the loop reads the rest of the innermost list as recursion does, and then
what waits. -/
theorem afterOperand_eq {start : Cursor} (groups : List (Group Name))
    (list : Reading (List (Term Name)) start) :
    afterOperand naming endPosition groups list =
      behind (Descent.operands naming endPosition) list >>=
        closeGroups naming endPosition groups := by
  unfold afterOperand behind
  rw [bind_assoc]
  refine bind_congr fun comma => ?_
  cases comma with
  | none =>
      rw [pure_bind]
      cases groups with
      | nil => rw [closeGroups]
      | cons group outer =>
          rw [closeGroups]
          refine bind_congr fun closing => ?_
          have hclosing := closing.shorter
          exact afterOperand_eq outer _
  | some comma =>
      have hcomma := comma.shorter
      show (beforeOperand naming endPosition groups list.value comma.stop >>= fun list' =>
        pure (list.after (comma.after list'))) = _
      rw [beforeOperand_eq groups list.value comma.stop, bind_assoc, bind_assoc]
      refine bind_congr fun others => ?_
      rw [pure_bind, closeGroups_after, closeGroups_after, bind_assoc]
      refine bind_congr fun list => ?_
      rw [pure_bind]
termination_by (list.stop.items.length, 0)

/-- An operand is read as recursion reads it. -/
theorem operand_eq (start : Cursor) :
    operand naming endPosition start = Descent.operand naming endPosition start := by
  unfold operand Descent.operand
  refine bind_congr fun first => ?_
  have hfirst := first.shorter
  obtain ⟨⟨found, range⟩, stop, hshorter⟩ := first
  cases found with
  | keyword reserved =>
      cases reserved with
      | record =>
          simp only [record_eq range stop]
      | _ => rfl
  | openParen => simp only [operands_eq_descent stop]
  | _ => rfl
termination_by (start.items.length, 0)

/-- A record is read as recursion reads it, with the same number of records open in front of each
field and behind the last. -/
theorem record_eq (keyword : ByteRange) (start : Cursor) :
    record naming endPosition keyword start = Descent.record naming endPosition keyword start := by
  unfold record Descent.record
  split
  · rfl
  · refine bind_congr fun opening => ?_
    have hopening : opening.stop.items.length < start.items.length := opening.shorter
    rw [field_eq opening.stop.enterRecord, descent_fields_eq, bind_assoc]
    refine bind_congr fun first => ?_
    have hfirst : first.stop.items.length < start.items.length :=
      Nat.lt_trans first.shorter hopening
    rw [moreFields_eq (first.map ([·]))]
termination_by (start.items.length, 0)

/-- The fields behind the first one are read as recursion reads them. -/
theorem moreFields_eq {start : Cursor} (list : Reading (TermFields Name) start) :
    moreFields naming endPosition list = behind (Descent.fields naming endPosition) list := by
  unfold moreFields behind
  refine bind_congr fun comma => ?_
  cases comma with
  | none => rfl
  | some comma =>
      have hcomma := comma.shorter
      show (field naming endPosition comma.stop >>= fun next => moreFields naming endPosition
        (list.after (comma.after (next.map fun field => list.value ++ [field])))) =
          Descent.fields naming endPosition comma.stop >>= fun others =>
            pure (list.after (comma.after (others.map (list.value ++ ·))))
      rw [field_eq comma.stop, descent_fields_eq, bind_assoc]
      refine bind_congr fun next => ?_
      have hnext : next.stop.items.length < list.stop.items.length :=
        Nat.lt_trans next.shorter hcomma
      rw [moreFields_eq (list.after (comma.after (next.map fun field => list.value ++ [field])))]
      show behind _ (list.after (comma.after ((next.map ([·])).map (list.value ++ ·)))) = _
      rw [behind_after, behind_after, behind_map_append, bind_assoc, bind_assoc]
      refine bind_congr fun others => ?_
      rw [pure_bind, pure_bind]
termination_by (list.stop.items.length, 0)

/-- A field is read as recursion reads it. -/
theorem field_eq (start : Cursor) :
    field naming endPosition start = Descent.field naming endPosition start := by
  unfold field Descent.field
  refine bind_congr fun label => bind_congr fun equals => ?_
  have hequals : equals.stop.items.length < start.items.length :=
    Nat.lt_trans equals.shorter label.shorter
  rw [operand_eq equals.stop]
termination_by (start.items.length, 0)
end

end Loop

/-! ## Texts -/

/-- The loop with its stack of open groups reads from every place what recursion reads, whatever
number of records is open there: the same terms up to the same place with the same number of records
open, or else the same error. The automaton reads the same terms up to the same place as well. -/
theorem operands_eq_recursion (endPosition : Nat) (start : Cursor) :
    operands .texts endPosition start = Descent.operands .texts endPosition start ∧
      Parser.run start.openRecords endPosition .initial start.items =
        (operands .texts endPosition start).map fun list => (list.value, list.stop.items) := by
  have hloop : operands .texts endPosition start = Descent.operands .texts endPosition start :=
    operands_eq_descent start
  rw [hloop]
  exact ⟨rfl, Descent.run_initial start⟩

/-- The loop reads the tree of a text. -/
theorem tree_eq_ofLexemes (endPosition : Nat) (items : List Lexeme) :
    tree .texts endPosition items = Tree.ofLexemes endPosition items := by
  unfold tree
  rw [operands_eq_descent, Tree.ofLexemes]
  have hrun : Parser.run 0 endPosition .initial items = _ := Descent.run_initial ⟨items, 0⟩
  rw [hrun]
  cases Descent.operands .texts endPosition ⟨items, 0⟩ with
  | error error => rfl
  | ok list =>
      obtain ⟨terms, ⟨items, count⟩, hshorter⟩ := list
      cases items with
      | nil => rfl
      | cons item rest => cases item <;> rfl

end ListReader

end ArrayShape
