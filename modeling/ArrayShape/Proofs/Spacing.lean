import ArrayShape.Proofs.Lexing
import ArrayShape.Proofs.Relocation
import ArrayShape.Proofs.Runs

/-!
# Blanks between items do not matter

Two texts with the same items are read as the same shape, or with the same error at the same items
(`Shape.parse_of_same_items`). The marks of a text, where its items start and stop, are numbered in
order. A text is read as its items would be if they stood at the numbers of their marks, with the
marks put into the place of the numbers (`Shape.parse_eq_numbered`), and those items are the same
for both texts.
-/

namespace ArrayShape

namespace Lexeme

/-! ## Marks -/

/-- The offset of the mark with a number, in a text with some items: the item with number `n` starts
at mark `2 * n` and stops at mark `2 * n + 1`, and the marks behind the last item are the end. -/
def mark (items : List Lexeme) (endPosition number : Nat) : Nat :=
  match items[number / 2]? with
  | none => endPosition
  | some item => if number % 2 = 0 then item.range.start else item.range.stop

/-- The item at a range that is a token, or else a stray character. -/
def ofToken? (range : ByteRange) : Option Token → Lexeme
  | some found => .token found range
  | none => .stray range

/-- The items that stand at the numbers of their marks. -/
def numbered (tokens : List (Option Token)) : List Lexeme :=
  tokens.mapIdx fun number token? => ofToken? ⟨2 * number, 2 * number + 1⟩ token?

variable {items : List Lexeme} {endPosition : Nat}

/-- Behind the marks of the items is the end. -/
theorem mark_end : mark items endPosition (2 * items.length) = endPosition := by
  have hnone : items[2 * items.length / 2]? = none :=
    List.getElem?_eq_none (by omega)
  rw [mark, hnone]

/-- The marks of an item are where it starts and where it stops. -/
theorem mark_item {number : Nat} {item : Lexeme} (h : items[number]? = some item) :
    mark items endPosition (2 * number) = item.range.start ∧
      mark items endPosition (2 * number + 1) = item.range.stop := by
  have hstart : items[2 * number / 2]? = some item := by
    rw [show 2 * number / 2 = number by omega, h]
  have hstop : items[(2 * number + 1) / 2]? = some item := by
    rw [show (2 * number + 1) / 2 = number by omega, h]
  refine ⟨?_, ?_⟩
  · simp only [mark, hstart]
    rw [if_pos (by omega)]
  · simp only [mark, hstop]
    rw [if_neg (by omega)]

/-- The marks of items are the items at the numbers of their marks, moved to the marks. -/
theorem map_move_numbered (items : List Lexeme) (endPosition : Nat) :
    (numbered (items.map token?)).map (move (mark items endPosition)) = items := by
  refine List.ext_getElem? fun number => ?_
  rw [List.getElem?_map, numbered, List.getElem?_mapIdx, List.getElem?_map]
  cases hitem : items[number]? with
  | none => rfl
  | some item =>
      have hrange : ByteRange.move (mark items endPosition) ⟨2 * number, 2 * number + 1⟩ =
          item.range := by
        obtain ⟨hstart, hstop⟩ := mark_item hitem
        rw [ByteRange.move, hstart, hstop]
      cases item with
      | token found range => exact congrArg (some ∘ Lexeme.token found) hrange
      | stray range => exact congrArg (some ∘ Lexeme.stray) hrange

/-- The marks of ordered items stand in the order of their numbers. -/
theorem keepsOrder_mark (hordered : Ordered items)
    (hinside : ∀ item ∈ items, item.range.stop ≤ endPosition) :
    ByteRange.KeepsOrder (mark items endPosition) := by
  intro earlier later hle
  unfold mark
  cases hfirst : items[earlier / 2]? with
  | none =>
      have hlength := List.getElem?_eq_none_iff.1 hfirst
      have hsecond : items[later / 2]? = none := List.getElem?_eq_none (by omega)
      simp only [hsecond, Nat.le_refl]
  | some item =>
      have hitem := List.mem_of_getElem? hfirst
      have hnonempty := hordered.nonempty item hitem
      have hend := hinside item hitem
      cases hsecond : items[later / 2]? with
      | none =>
          dsimp only
          split <;> omega
      | some other =>
          have hother := hordered.nonempty other (List.mem_of_getElem? hsecond)
          dsimp only
          by_cases hsame : earlier / 2 = later / 2
          -- Both marks are those of one item, so that the earlier one is where it starts.
          · rw [hsame, hsecond, Option.some.injEq] at hfirst
            subst hfirst
            split <;> split <;> omega
          · have hfollows : item.range.stop ≤ other.range.start := by
              obtain ⟨hearlier, rfl⟩ := List.getElem?_eq_some_iff.1 hfirst
              obtain ⟨hlater, rfl⟩ := List.getElem?_eq_some_iff.1 hsecond
              exact List.pairwise_iff_getElem.1 hordered.follows _ _ hearlier hlater (by omega)
            split <;> split <;> omega

/-- Two offsets, each into one of two texts, are where the same item starts, where the same item
stops, or where the texts end. Items are the same if they have the same number. -/
inductive SameMark (first second : String) : Nat → Nat → Prop where
  | start (number : Nat) (item other : Lexeme) (hitem : (ofText first)[number]? = some item)
      (hother : (ofText second)[number]? = some other) :
      SameMark first second item.range.start other.range.start
  | stop (number : Nat) (item other : Lexeme) (hitem : (ofText first)[number]? = some item)
      (hother : (ofText second)[number]? = some other) :
      SameMark first second item.range.stop other.range.stop
  | textEnd : SameMark first second first.utf8ByteSize second.utf8ByteSize

/-- The marks with the same number, in texts with as many items. -/
theorem sameMark_mark {first second : String} (h : (ofText first).length = (ofText second).length)
    (number : Nat) :
    SameMark first second (mark (ofText first) first.utf8ByteSize number)
      (mark (ofText second) second.utf8ByteSize number) := by
  unfold mark
  cases hfirst : (ofText first)[number / 2]? with
  | none =>
      have hlength := List.getElem?_eq_none_iff.1 hfirst
      rw [List.getElem?_eq_none (h ▸ hlength)]
      exact .textEnd
  | some item =>
      obtain ⟨hlength, -⟩ := List.getElem?_eq_some_iff.1 hfirst
      obtain ⟨other, hsecond⟩ : ∃ other, (ofText second)[number / 2]? = some other :=
        ⟨_, List.getElem?_eq_getElem (h ▸ hlength)⟩
      rw [hsecond]
      dsimp only
      split
      · exact .start (number / 2) item other hfirst hsecond
      · exact .stop (number / 2) item other hfirst hsecond

end Lexeme

/-- Two errors are the same apart from their offsets, and the offsets at the same place in both are
in a relation: some error is both of them with its offsets replaced by related ones. -/
def Error.SameApart (related : Nat → Nat → Prop) (first second : Error) : Prop :=
  ∃ (error : Error) (left right : Nat → Nat), (∀ number, related (left number) (right number)) ∧
    first = error.move left ∧ second = error.move right

namespace Shape

open Lexeme

/-- A text is read as the items at the numbers of its marks, with the marks in the place of the
numbers. -/
theorem parse_eq_numbered (options : Options) (source : String) :
    parse options source =
      (ofLexemes options (2 * (ofText source).length)
        (numbered ((ofText source).map token?))).mapError
          (Error.move (mark (ofText source) source.utf8ByteSize)) := by
  have hkeeps : ByteRange.KeepsOrder (mark (ofText source) source.utf8ByteSize) :=
    keepsOrder_mark (ordered_ofText source) (Lexer.tokenizes_ofText source).inside
  rw [← ofLexemes_move hkeeps, map_move_numbered, mark_end, parse_eq_ofLexemes]

/-- Blanks between items do not matter. Two texts that hold the same tokens, and stray characters at
the same places among them, describe the same shape, or are rejected with errors that are the same
apart from their offsets: an offset in one is where an item of its text starts or stops, or where
the text ends, and the offset at the same place in the other is where the same item starts or stops,
or where the other text ends. -/
theorem parse_of_same_items (options : Options) {first second : String}
    (h : (ofText first).map token? = (ofText second).map token?) :
    (∀ shape, parse options first = .ok shape → parse options second = .ok shape) ∧
    ∀ error, parse options first = .error error → ∃ other, parse options second = .error other ∧
      error.SameApart (SameMark first second) other := by
  have hlength : (ofText first).length = (ofText second).length := by
    simpa using congrArg List.length h
  have hfirst := parse_eq_numbered options first
  have hsecond := parse_eq_numbered options second
  rw [← h, ← hlength] at hsecond
  rw [hfirst, hsecond]
  cases ofLexemes options (2 * (ofText first).length) (numbered ((ofText first).map token?)) with
  | ok found =>
      refine ⟨fun shape hshape => hshape, fun error herror => ?_⟩
      cases herror
  | error found =>
      refine ⟨fun shape hshape => ?_, fun error herror => ?_⟩
      · cases hshape
      · cases herror
        exact ⟨_, rfl, found, _, _, sameMark_mark hlength, rfl, rfl⟩

/-- A text that ends in an open group, without blanks and with several of them, one of which takes
three bytes. -/
theorem parse_of_same_items_openGroup :
    (ofText "(a,(b").map token? = (ofText " ( a\u3000,( b ").map token? ∧
      parse {} "(a,(b" = .error (.malformed (.unclosedParen ⟨3, 4⟩ 5)) ∧
      parse {} " ( a\u3000,( b " = .error (.malformed (.unclosedParen ⟨8, 9⟩ 12)) ∧
      (Error.malformed (.unclosedParen ⟨3, 4⟩ 5)).SameApart
        (SameMark "(a,(b" " ( a\u3000,( b ") (.malformed (.unclosedParen ⟨8, 9⟩ 12)) := by
  have hfirst : ofText "(a,(b" =
      [.token .openParen ⟨0, 1⟩, .token (.name "a") ⟨1, 2⟩, .token .comma ⟨2, 3⟩,
        .token .openParen ⟨3, 4⟩, .token (.name "b") ⟨4, 5⟩] := by
    decide +kernel
  have hsecond : ofText " ( a\u3000,( b " =
      [.token .openParen ⟨1, 2⟩, .token (.name "a") ⟨3, 4⟩, .token .comma ⟨7, 8⟩,
        .token .openParen ⟨8, 9⟩, .token (.name "b") ⟨10, 11⟩] := by
    decide +kernel
  have hitems : (ofText "(a,(b").map token? = (ofText " ( a\u3000,( b ").map token? := by
    rw [hfirst, hsecond]
    rfl
  have hparse : parse {} "(a,(b" = .error (.malformed (.unclosedParen ⟨3, 4⟩ 5)) := by
    rw [parse, Tree.parse, hfirst]
    rfl
  have hother : parse {} " ( a\u3000,( b " = .error (.malformed (.unclosedParen ⟨8, 9⟩ 12)) := by
    rw [parse, Tree.parse, hsecond]
    rfl
  obtain ⟨other, hfound, hsame⟩ := (parse_of_same_items {} hitems).2 _ hparse
  cases hother.symm.trans hfound
  exact ⟨hitems, hparse, hother, hsame⟩

end Shape

end ArrayShape
