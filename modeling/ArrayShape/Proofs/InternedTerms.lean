import ArrayShape.Proofs.Following
import ArrayShape.Proofs.ListReader

/-!
# Terms that are read with keys

A reader that enters names follows the same reader with names that stay texts: it fails with the
same error, or else it stops at the same place with keys that have the texts that the other one
reads. What was read first keeps its texts while the rest is read.
-/

namespace ArrayShape

namespace Interner

variable {Table Key : Type} (interner : Interner Table Key)

/-- The second has the texts that the keys of the first have. -/
def Spells {α β : Type} (visit : (Key → Option String) → α → Option β) (table : Table) (keyed : α)
    (texts : β) : Prop :=
  visit (interner.text? table) keyed = some texts

/-- Two readings stop at one place, and what the second has read has the texts that the keys of what
the first has read have. -/
structure ReadsAs {α β : Type} {start : Cursor} (visit : (Key → Option String) → α → Option β)
    (table : Table) (keyed : Reading α start) (texts : Reading β start) : Prop where
  spells : interner.Spells visit table keyed.value texts.value
  stop : keyed.stop = texts.stop

variable {interner} {endPosition : Nat}

/-- A reader goes on behind what was read, from the same place. -/
theorem Follows.read_bind {α β γ δ : Type} {table : Table} {start : Cursor}
    {visit : (Key → Option String) → α → Option β} {values : Table → γ → δ → Prop}
    {read : Interning Table ParseError (Reading α start)}
    {expected : Except ParseError (Reading β start)}
    {next : Reading α start → Interning Table ParseError γ}
    {following : Reading β start → Except ParseError δ}
    (h : interner.Follows table (interner.ReadsAs visit) Same read expected)
    (hnext : ∀ value texts stop hshorter later, interner.Reaches table later →
      interner.Spells visit later value texts → interner.Follows later values Same
        (next ⟨value, stop, hshorter⟩) (following ⟨texts, stop, hshorter⟩)) :
    interner.Follows table values Same (read >>= next) (expected >>= following) := by
  refine h.bind fun keyed other later hreach hreads => ?_
  obtain ⟨value, stop, hshorter⟩ := keyed
  obtain ⟨texts, stop', hshorter'⟩ := other
  obtain ⟨hspells, hstop⟩ := hreads
  subst hstop
  exact hnext value texts stop hshorter later hreach hspells

/-- A label is entered, also if it is a keyword. -/
theorem follows_label (table : Table) (start : Cursor) :
    interner.Follows table (interner.ReadsAs Spanned.mapM) Same
      (Cursor.label endPosition interner.naming start) (Cursor.label endPosition .texts start) := by
  unfold Cursor.label
  refine .lift_bind fun next => ?_
  obtain ⟨⟨found, range⟩, stop, hshorter⟩ := next
  cases found with
  | name text =>
      exact (follows_enter table text).bind_ok fun key later _ hkey =>
        .of_ok ⟨Spanned.mapM_eq_some.2 ⟨text, hkey, rfl⟩, rfl⟩
  | keyword reserved =>
      exact (follows_enterStatic table reserved.text).bind_ok fun key later _ hkey =>
        .of_ok ⟨Spanned.mapM_eq_some.2 ⟨reserved.text, hkey, rfl⟩, rfl⟩
  | _ => exact .of_error rfl

/-- An enumeration has no names. -/
theorem follows_enum (table : Table) (keyword : ByteRange) (start : Cursor) :
    interner.Follows table (interner.ReadsAs Term.mapM) Same
      (liftM (Cursor.enum endPosition keyword start)) (Cursor.enum endPosition keyword start) := by
  unfold Cursor.enum
  simp only [monadLift_bind, monadLift_pure]
  refine .lift_bind fun opening => .lift_bind fun values => .lift_bind fun closing => ?_
  exact .of_ok ⟨rfl, rfl⟩

/-- A bounded range has no names. -/
theorem follows_var (table : Table) (keyword : ByteRange) (start : Cursor) :
    interner.Follows table (interner.ReadsAs Term.mapM) Same
      (liftM (Cursor.var endPosition keyword start)) (Cursor.var endPosition keyword start) := by
  unfold Cursor.var
  simp only [monadLift_bind, monadLift_pure]
  refine .lift_bind fun opening => .lift_bind fun lower => .lift_bind fun comma =>
    .lift_bind fun upper => .lift_bind fun closing => ?_
  exact .of_ok ⟨rfl, rfl⟩

mutual
/-- A name that is an operand is entered, unless it is called like a constructor. -/
theorem follows_operand (table : Table) (start : Cursor) :
    interner.Follows table (interner.ReadsAs Term.mapM) Same
      (Descent.operand interner.naming endPosition start)
      (Descent.operand .texts endPosition start) := by
  rw [Descent.operand, Descent.operand]
  refine .lift_bind fun first => ?_
  obtain ⟨⟨found, range⟩, stop, hshorter⟩ := first
  cases found with
  | number digits => exact .lift_bind fun value => .of_ok ⟨rfl, rfl⟩
  | name text =>
      refine .lift_bind fun next => ?_
      have hname : ∀ key later, interner.text? later key = some text →
          interner.Spells Term.mapM later (.name range key) (.name range text) :=
        fun key later hkey => Term.mapM_name_eq_some.2 ⟨text, hkey, rfl⟩
      cases next with
      | none =>
          exact (follows_enter table text).bind_ok fun key later _ hkey =>
            .of_ok ⟨hname key later hkey, rfl⟩
      | some following =>
          cases following with
          | openParen => exact .of_error rfl
          | _ =>
              exact (follows_enter table text).bind_ok fun key later _ hkey =>
                .of_ok ⟨hname key later hkey, rfl⟩
  | keyword reserved =>
      cases reserved with
      | enum =>
          exact (follows_enum table range stop).read_bind
            fun value texts stop _ later _ h => .of_ok ⟨h, rfl⟩
      | record =>
          exact (follows_record table range stop).read_bind
            fun value texts stop _ later _ h => .of_ok ⟨h, rfl⟩
      | var =>
          exact (follows_var table range stop).read_bind
            fun value texts stop _ later _ h => .of_ok ⟨h, rfl⟩
  | openParen =>
      refine (follows_operands table stop).read_bind fun members texts stop _ later _ h => ?_
      refine .lift_bind fun closing => .of_ok ⟨?_, rfl⟩
      exact Term.mapM_group_eq_some.2 ⟨texts, h, rfl⟩
  | _ => exact .of_error rfl
termination_by (start.items.length, 0)

/-- The first operand keeps its texts while the others are read. -/
theorem follows_operands (table : Table) (start : Cursor) :
    interner.Follows table (interner.ReadsAs Term.mapAllM) Same
      (Descent.operands interner.naming endPosition start)
      (Descent.operands .texts endPosition start) := by
  rw [Descent.operands, Descent.operands]
  refine (follows_operand table start).read_bind fun first text stop hshorter later _ hfirst => ?_
  refine .lift_bind fun comma => ?_
  cases comma with
  | none =>
      refine .of_ok ⟨?_, rfl⟩
      exact Term.mapAllM_cons_eq_some.2 ⟨text, hfirst, [], rfl, rfl⟩
  | some comma =>
      have hlength : comma.stop.items.length < start.items.length :=
        Nat.lt_trans comma.shorter hshorter
      refine (follows_operands later comma.stop).read_bind
        fun others texts stop _ last hreach hothers => .of_ok ⟨?_, rfl⟩
      exact Term.mapAllM_cons_eq_some.2
        ⟨text, first.mapM_keeps hreach.keeps text hfirst, texts, hothers, rfl⟩
termination_by (start.items.length, 1)

/-- A record has the names of its fields. -/
theorem follows_record (table : Table) (keyword : ByteRange) (start : Cursor) :
    interner.Follows table (interner.ReadsAs Term.mapM) Same
      (Descent.record interner.naming endPosition keyword start)
      (Descent.record .texts endPosition keyword start) := by
  rw [Descent.record, Descent.record]
  split
  · exact .of_error rfl
  · refine .lift_bind fun opening => ?_
    have hlength : opening.stop.items.length < start.items.length := opening.shorter
    refine (follows_fields table _).read_bind fun list texts stop _ later _ hlist => ?_
    refine .lift_bind fun closing => .of_ok ⟨?_, rfl⟩
    exact Term.mapM_record_eq_some.2 ⟨texts, hlist, rfl⟩
termination_by (start.items.length, 0)

/-- The first field keeps its texts while the others are read. -/
theorem follows_fields (table : Table) (start : Cursor) :
    interner.Follows table (interner.ReadsAs Term.mapFieldsM) Same
      (Descent.fields interner.naming endPosition start)
      (Descent.fields .texts endPosition start) := by
  rw [Descent.fields, Descent.fields]
  refine (follows_field table start).read_bind fun first text stop hshorter later _ hfirst => ?_
  obtain ⟨label, hlabel, type, htype, rfl⟩ := Term.mapFieldM_eq_some.1 hfirst
  refine .lift_bind fun comma => ?_
  cases comma with
  | none =>
      refine .of_ok ⟨?_, rfl⟩
      exact Term.mapFieldsM_cons_eq_some.2 ⟨label, hlabel, type, htype, [], rfl, rfl⟩
  | some comma =>
      have hlength : comma.stop.items.length < start.items.length :=
        Nat.lt_trans comma.shorter hshorter
      refine (follows_fields later comma.stop).read_bind
        fun others texts stop _ last hreach hothers => .of_ok ⟨?_, rfl⟩
      exact Term.mapFieldsM_cons_eq_some.2 ⟨label, first.1.mapM_keeps hreach.keeps label hlabel,
        type, first.2.mapM_keeps hreach.keeps type htype, texts, hothers, rfl⟩
termination_by (start.items.length, 1)

/-- The label keeps its text while the type is read. -/
theorem follows_field (table : Table) (start : Cursor) :
    interner.Follows table (interner.ReadsAs Term.mapFieldM) Same
      (Descent.field interner.naming endPosition start)
      (Descent.field .texts endPosition start) := by
  rw [Descent.field, Descent.field]
  refine (follows_label table start).read_bind
    fun label text stop hshorter later _ hlabel => ?_
  refine .lift_bind fun equals => ?_
  have hequals : equals.stop.items.length < start.items.length :=
    Nat.lt_trans equals.shorter hshorter
  refine (follows_operand later equals.stop).read_bind
    fun type typeText stop _ behind hreach htype => .of_ok ⟨?_, rfl⟩
  exact Term.mapFieldM_eq_some.2
    ⟨text, label.mapM_keeps hreach.keeps text hlabel, typeText, htype, rfl⟩
termination_by (start.items.length, 0)
end

/-- The tree that is read with keys has the texts of the tree that is read. -/
theorem follows_tree (table : Table) (items : List Lexeme) :
    interner.Follows table (interner.Spells Tree.mapM) Same
      (ListReader.tree interner.naming endPosition items) (Tree.ofLexemes endPosition items) := by
  rw [← ListReader.tree_eq_ofLexemes, ListReader.tree, ListReader.tree,
    ListReader.operands_eq_descent, ListReader.operands_eq_descent]
  refine (follows_operands table ⟨items, 0⟩).read_bind fun terms texts stop _ later _ hterms => ?_
  obtain ⟨items, count⟩ := stop
  cases items with
  | nil => exact .of_ok (Option.bind_eq_some_iff.2 ⟨texts, hterms, rfl⟩)
  | cons item rest => cases item <;> exact .of_error rfl

end Interner

end ArrayShape
