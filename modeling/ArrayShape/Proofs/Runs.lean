import ArrayShape.Proofs.LongestMatch

/-!
# Runs of items

The items of a text are ordered: none is empty, and each begins behind the ones before it. A range
covers a run of items when it goes from the start of the first to the end of the last. Ranges that
cover runs with an item between each two of them follow each other.
-/

namespace ArrayShape

namespace Lexeme

/-- Items that are not empty, each behind the ones before it. -/
structure Ordered (items : List Lexeme) : Prop where
  nonempty : ∀ item ∈ items, item.range.start < item.range.stop
  follows : items.Pairwise fun earlier later => earlier.range.stop ≤ later.range.start

/-- The items of a text are ordered. -/
theorem ordered_ofText (source : String) : Ordered (ofText source) :=
  ⟨(Lexer.tokenizes_ofText source).nonempty, (Lexer.tokenizes_ofText source).ordered⟩

namespace Ordered

variable {items others : List Lexeme}

/-- Some of ordered items are ordered. -/
theorem sublist (h : Ordered items) (hothers : others.Sublist items) : Ordered others :=
  ⟨fun item hitem => h.nonempty item (hothers.subset hitem), h.follows.sublist hothers⟩

/-- The first of ordered items ends in front of the others. -/
theorem head_stop_le {first : Lexeme} (h : Ordered (first :: items)) {later : Lexeme}
    (hlater : later ∈ items) : first.range.stop ≤ later.range.start :=
  (List.pairwise_cons.1 h.follows).1 later hlater

/-- Of ordered items in two parts, those of the first end in front of those of the second. -/
theorem stop_le_start (h : Ordered (items ++ others)) {earlier later : Lexeme}
    (hearlier : earlier ∈ items) (hlater : later ∈ others) :
    earlier.range.stop ≤ later.range.start :=
  (List.pairwise_append.1 h.follows).2.2 earlier hearlier later hlater

/-- Items between others that are ordered are ordered. -/
theorem inner {first last : Lexeme} (opening : List Lexeme)
    (h : Ordered (first :: (opening ++ (items ++ [last])))) : Ordered items :=
  h.sublist <| (List.sublist_append_left items _).trans <|
    (List.sublist_append_right opening _).trans (List.sublist_cons_self first _)

end Ordered

end Lexeme

/-- The range goes from the start of the first of some items to the end of the last. -/
def ByteRange.Covers (range : ByteRange) (items : List Lexeme) : Prop :=
  ∃ first last, items.head? = some first ∧ items.getLast? = some last ∧
    range = ⟨first.range.start, last.range.stop⟩

namespace ByteRange.Covers

variable {range : ByteRange} {items : List Lexeme}

/-- The range of an item covers the item. -/
theorem single (item : Lexeme) : item.range.Covers [item] :=
  ⟨item, item, rfl, rfl, rfl⟩

/-- The merged ranges of the first and the last of ordered items cover them all. -/
theorem merge {first last : Lexeme} {between : List Lexeme}
    (h : Lexeme.Ordered (first :: (between ++ [last]))) :
    (first.range.merge last.range).Covers (first :: (between ++ [last])) := by
  have hle : first.range.stop ≤ last.range.start :=
    h.head_stop_le (by simp)
  have hfirst := h.nonempty first (by simp)
  have hlast := h.nonempty last (by simp)
  refine ⟨first, last, rfl, ?_, merge_of_le (by omega) (by omega)⟩
  rw [← List.cons_append, List.getLast?_concat]

/-- A range that covers ordered items is not empty. -/
theorem start_lt_stop (h : range.Covers items) (hordered : Lexeme.Ordered items) :
    range.start < range.stop := by
  obtain ⟨first, last, hfirst, hlast, rfl⟩ := h
  obtain ⟨rest, rfl⟩ := List.head?_eq_some_iff.1 hfirst
  have hpos := hordered.nonempty first List.mem_cons_self
  rcases List.mem_cons.1 (List.mem_of_getLast? hlast) with rfl | hmem
  · exact hpos
  · have hle := hordered.head_stop_le hmem
    have hlastPos := hordered.nonempty last (List.mem_cons_of_mem _ hmem)
    dsimp only
    omega

/-- A range that covers items begins and ends with one of them. -/
theorem exists_mem (h : range.Covers items) :
    (∃ first ∈ items, first.range.start = range.start) ∧
      ∃ last ∈ items, last.range.stop = range.stop := by
  obtain ⟨first, last, hfirst, hlast, rfl⟩ := h
  exact ⟨⟨first, List.mem_of_mem_head? hfirst, rfl⟩, last, List.mem_of_getLast? hlast, rfl⟩

end ByteRange.Covers

/-- Ranges that cover runs of items, with one item between each two runs. -/
inductive ByteRange.CoverRuns : List ByteRange → List Lexeme → Prop where
  | last {range : ByteRange} {run : List Lexeme} (hrun : range.Covers run) : CoverRuns [range] run
  | more {range : ByteRange} {run : List Lexeme} {separator : Lexeme} {ranges : List ByteRange}
    {items : List Lexeme} (hrun : range.Covers run) (hrest : CoverRuns ranges items) :
    CoverRuns (range :: ranges) (run ++ separator :: items)

namespace ByteRange.CoverRuns

variable {ranges : List ByteRange} {items : List Lexeme}

/-- Each of the ranges is not empty, and begins and ends with some of the items. -/
theorem bounds (h : CoverRuns ranges items) (hordered : Lexeme.Ordered items) :
    ∀ range ∈ ranges, range.start < range.stop ∧
      (∃ first ∈ items, first.range.start = range.start) ∧
      ∃ last ∈ items, last.range.stop = range.stop := by
  induction h with
  | last hrun =>
      intro range hrange
      rw [List.mem_singleton] at hrange
      subst hrange
      exact ⟨hrun.start_lt_stop hordered, hrun.exists_mem⟩
  | @more range run separator ranges items hrun _ ih =>
      have hfirst := hordered.sublist (List.sublist_append_left run _)
      have hothers := hordered.sublist
        ((List.sublist_cons_self separator items).trans (List.sublist_append_right run _))
      refine List.forall_mem_cons.2 ⟨?_, fun other hother => ?_⟩
      · obtain ⟨⟨first, hmem, hstart⟩, last, hmem', hstop⟩ := hrun.exists_mem
        exact ⟨hrun.start_lt_stop hfirst, ⟨first, List.mem_append_left _ hmem, hstart⟩,
          last, List.mem_append_left _ hmem', hstop⟩
      · obtain ⟨hpos, ⟨first, hmem, hstart⟩, last, hmem', hstop⟩ := ih hothers other hother
        exact ⟨hpos, ⟨first, by simp [hmem], hstart⟩, last, by simp [hmem'], hstop⟩

/-- Each of the ranges ends in front of the separator before the next one. -/
theorem pairwise (h : CoverRuns ranges items) (hordered : Lexeme.Ordered items) :
    ranges.Pairwise fun earlier later => earlier.stop < later.start := by
  induction h with
  | last hrun => exact List.pairwise_singleton _ _
  | @more range run separator ranges items hrun hrest ih =>
      have htail := hordered.sublist (List.sublist_append_right run _)
      have hothers := htail.sublist (List.sublist_cons_self separator items)
      refine .cons (fun later hlater => ?_) (ih hothers)
      obtain ⟨-, last, hlast, hstop⟩ := hrun.exists_mem
      obtain ⟨-, ⟨first, hfirst, hstart⟩, -⟩ := hrest.bounds hothers later hlater
      have hbefore := hordered.stop_le_start hlast List.mem_cons_self
      have hseparator := htail.nonempty separator List.mem_cons_self
      have hbehind := htail.head_stop_le hfirst
      omega

end ByteRange.CoverRuns

/-- Ranges that follow each other merge into the range from the first start to the last stop. -/
theorem ByteRange.foldl_merge {first : ByteRange} {others : List ByteRange}
    (hnonempty : ∀ range ∈ first :: others, range.start < range.stop)
    (hfollows : (first :: others).Pairwise fun earlier later => earlier.stop < later.start) :
    others.foldl merge first =
      ⟨first.start, ((first :: others).getLast (List.cons_ne_nil _ _)).stop⟩ := by
  induction others generalizing first with
  | nil => rfl
  | cons second rest ih =>
      obtain ⟨hfirst, hothers⟩ := List.forall_mem_cons.1 hnonempty
      obtain ⟨hbefore, hrest⟩ := List.pairwise_cons.1 hfollows
      have hnext := hbefore second List.mem_cons_self
      have hsecond := hothers second List.mem_cons_self
      rw [List.foldl_cons, merge_of_le (by omega) (by omega), ih]
      · cases rest <;> rfl
      · exact List.forall_mem_cons.2 ⟨by dsimp only; omega, (List.forall_mem_cons.1 hothers).2⟩
      · exact .cons (List.pairwise_cons.1 hrest).1 (List.pairwise_cons.1 hrest).2

end ArrayShape
