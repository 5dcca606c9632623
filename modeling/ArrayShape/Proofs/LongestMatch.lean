import ArrayShape.Proofs.Scanning

/-!
# Longest match

The items of a text are described by their places, without saying how a text is cut.
`Lexer.Tokenizes` says that the items stand one behind another, that what they leave out is blank,
that each token is the longest that begins at its place, and that each stray character begins no
token. `Lexeme.ofText_tokenizes` says that the items of a text have these properties, and that no
others do.
-/

namespace ArrayShape

namespace Text

/-- The byte at an offset belongs to a blank character. -/
def BlankAt (source : String) (position : Nat) : Prop :=
  ∃ c range, slice? source range = some (String.singleton c) ∧ range.Contains position ∧
    isBlank c = true

end Text

open Text

/-- The token is written where the range is, and is the longest that begins there. -/
structure Token.LongestAt (source : String) (range : ByteRange) (token : Token) : Prop where
  proper : token.Proper
  text : slice? source range = some token.text
  /-- The character behind the token does not go on with it. -/
  ended : ∀ c ∈ charAt? source range.stop, token.extendedBy c = false
  /-- No token that begins at the same place ends later. -/
  longest : ∀ other : Token, other.Proper → ∀ stop,
    slice? source ⟨range.start, stop⟩ = some other.text → stop ≤ range.stop
  /-- The token is a keyword if and only if all of it is written as the keyword. -/
  keyword : ∀ reserved, token = .keyword reserved ↔ slice? source range = some reserved.text

/-- The item is one that the text holds at its range: a longest token, or a character that is not
blank and begins no token. -/
def Lexeme.StandsIn (source : String) : Lexeme → Prop
  | .token found range => found.LongestAt source range
  | .stray range =>
    ∃ c, slice? source range = some (String.singleton c) ∧ isBlank c = false ∧ ¬ Token.Begins c

/-- The items that reading a text by longest match gives, by their places. -/
structure Lexer.Tokenizes (source : String) (items : List Lexeme) : Prop where
  nonempty : ∀ item ∈ items, item.range.start < item.range.stop
  inside : ∀ item ∈ items, item.range.stop ≤ source.utf8ByteSize
  /-- Each item begins behind the ones before it. -/
  ordered : items.Pairwise fun earlier later => earlier.range.stop ≤ later.range.start
  /-- Every byte outside the items belongs to a blank character. -/
  uncovered : ∀ position < source.utf8ByteSize,
    (∀ item ∈ items, ¬ item.range.Contains position) → BlankAt source position
  standing : ∀ item ∈ items, item.StandsIn source

namespace Lexer

/-- The part of a text between some of its characters is at the range of their bytes. -/
theorem slice?_of_eq_append {source : String} {before taken behind : List Char}
    (h : source.toList = before ++ (taken ++ behind)) :
    slice? source ⟨byteLength before, byteLength before + byteLength taken⟩ =
      some (String.ofList taken) :=
  slice?_eq_some_iff.2 ⟨before, behind, by simpa using h, rfl, by simp⟩

/-- An item stands in a text exactly when it takes some of its characters. -/
theorem standsIn_iff {source : String} {item : Lexeme} :
    item.StandsIn source ↔
      ∃ before taken behind, source.toList = before ++ (taken ++ behind) ∧
        item.Takes (byteLength before) behind taken := by
  constructor
  · intro h
    cases item with
    | token found range =>
        obtain ⟨start, stop⟩ := range
        obtain ⟨before, behind, hsource, rfl, rfl⟩ := slice?_eq_some_iff.1 h.text
        have hends : found.EndsBefore behind := fun c hc => h.ended c <| by
          rw [charAt?_of_eq_append hsource]
          exact hc
        refine ⟨before, found.text.toList, behind, by simpa using hsource, ?_⟩
        rw [byteLength_append]
        exact .token h.proper hends
    | stray range =>
        obtain ⟨start, stop⟩ := range
        obtain ⟨c, hslice, hblank, hbegins⟩ := h
        obtain ⟨before, behind, hsource, rfl, rfl⟩ := slice?_eq_some_iff.1 hslice
        rw [String.toList_singleton] at hsource ⊢
        refine ⟨before, [c], behind, by simpa using hsource, ?_⟩
        rw [byteLength_append]
        exact .stray hblank hbegins
  · rintro ⟨before, taken, behind, hsource, htakes⟩
    cases htakes with
    | @token found hproper hends =>
        have hslice := slice?_of_eq_append hsource
        rw [String.ofList_toList] at hslice
        refine ⟨hproper, hslice, fun c hc => hends c ?_, fun other hother stop hstop => ?_,
          fun reserved => ?_⟩
        · rw [← List.append_assoc] at hsource
          rw [← byteLength_append, charAt?_of_eq_append hsource] at hc
          exact hc
        · obtain ⟨front, rest, hfront, hstart, rfl⟩ := slice?_eq_some_iff.1 hstop
          rw [List.append_assoc] at hfront
          obtain ⟨rfl, hbehind⟩ :=
            append_inj_of_byteLength (hsource.symm.trans hfront) hstart.symm
          have hle := Token.byteLength_text_le hproper hother hends hbehind
          rw [byteLength_append]
          exact Nat.add_le_add_left hle _
        · rw [Token.eq_keyword_iff hproper, hslice, Option.some.injEq]
    | @stray c hblank hbegins =>
        exact ⟨c, slice?_of_eq_append hsource, hblank, hbegins⟩

/-- A standing item is not empty, and ends within the text. -/
theorem bounds_of_standsIn {source : String} {item : Lexeme} (h : item.StandsIn source) :
    item.range.start < item.range.stop ∧ item.range.stop ≤ source.utf8ByteSize := by
  obtain ⟨before, taken, behind, hsource, htakes⟩ := standsIn_iff.1 h
  obtain ⟨hrange, hpos⟩ := htakes.range_eq
  rw [hrange, ← byteLength_toList, hsource, byteLength_append, byteLength_append]
  dsimp only
  omega

/-- An item that begins where some characters of its text do takes the first of them. -/
theorem exists_takes_of_standsIn {source : String} {before chars : List Char} {item : Lexeme}
    (hsource : source.toList = before ++ chars) (h : item.StandsIn source)
    (hstart : item.range.start = byteLength before) :
    ∃ taken behind, chars = taken ++ behind ∧ behind.length < chars.length ∧
      item.Takes (byteLength before) behind taken ∧
      item.range.stop = byteLength (before ++ taken) := by
  obtain ⟨front, taken, behind, hfront, htakes⟩ := standsIn_iff.1 h
  obtain ⟨hrange, hpos⟩ := htakes.range_eq
  rw [hrange] at hstart
  obtain ⟨rfl, rfl⟩ := append_inj_of_byteLength (hfront.symm.trans hsource) hstart
  have htaken : taken ≠ [] := fun hnil => by simp [hnil] at hpos
  have hlength := List.length_pos_iff.2 htaken
  refine ⟨taken, behind, rfl, ?_, htakes, ?_⟩
  · rw [List.length_append]
    omega
  · rw [hrange, byteLength_append]

/-- A character is blank if a byte at its beginning belongs to a blank character. -/
theorem isBlank_of_blankAt {source : String} {before rest : List Char} {c : Char}
    (hsource : source.toList = before ++ c :: rest) (h : BlankAt source (byteLength before)) :
    isBlank c = true := by
  obtain ⟨d, range, hslice, ⟨hstart, hstop⟩, hd⟩ := h
  obtain ⟨front, behind, hfront, hrange, hrange'⟩ := slice?_eq_some_iff.1 hslice
  rw [List.append_assoc, String.toList_singleton, List.singleton_append] at hfront
  rw [← hrange] at hstart
  rw [← hrange', String.toList_singleton, byteLength_append] at hstop
  obtain ⟨more, rfl, hmore⟩ :=
    append_eq_append_of_byteLength_le (hfront.symm.trans hsource) hstart
  cases more with
  | nil =>
      cases hmore
      exact hd
  | cons e more =>
      -- The blank character would end in front of the other one.
      cases hmore
      simp only [byteLength_append, byteLength_cons, byteLength_nil] at hstop
      omega

/-- An item that does not begin with a character begins behind it. -/
theorem byteLength_le_start {source : String} {before rest : List Char} {c : Char} {item : Lexeme}
    (hsource : source.toList = before ++ c :: rest) (h : item.StandsIn source)
    (hle : byteLength before ≤ item.range.start) (hne : item.range.start ≠ byteLength before) :
    byteLength (before ++ [c]) ≤ item.range.start := by
  obtain ⟨front, taken, behind, hfront, htakes⟩ := standsIn_iff.1 h
  rw [htakes.range_eq.1] at hle hne ⊢
  obtain ⟨more, rfl, hmore⟩ :=
    append_eq_append_of_byteLength_le (hsource.symm.trans hfront) hle
  cases more with
  | nil => exact absurd (by rw [List.append_nil]) hne
  | cons d more =>
      cases hmore
      simp only [byteLength_append, byteLength_cons, byteLength_nil]
      omega

/-- The first of items in order begins where one of them does, if none begins earlier. -/
theorem start_of_ordered {first : Lexeme} {others : List Lexeme} {position : Nat}
    (hnonempty : first.range.start < first.range.stop)
    (hordered : ∀ item ∈ others, first.range.stop ≤ item.range.start)
    (hstart : position ≤ first.range.start)
    (h : ∃ item ∈ first :: others, item.range.start = position) :
    first.range.start = position := by
  obtain ⟨item, hitem, hposition⟩ := h
  rcases List.mem_cons.1 hitem with rfl | hitem
  · exact hposition
  · have hlater := hordered item hitem
    omega

/-- Items that stand in a text, in order and with only blank characters between them, are those that
its characters are cut into. -/
theorem scan_of_standing {source : String} {before chars : List Char} {items : List Lexeme}
    (hsource : source.toList = before ++ chars)
    (hstanding : ∀ item ∈ items, item.StandsIn source)
    (hordered : items.Pairwise fun earlier later => earlier.range.stop ≤ later.range.start)
    (hstart : ∀ item ∈ items, byteLength before ≤ item.range.start)
    (huncovered : ∀ position, byteLength before ≤ position → position < source.utf8ByteSize →
      (∀ item ∈ items, ¬ item.range.Contains position) → BlankAt source position) :
    Scan (byteLength before) chars items := by
  have hsize : byteLength before + byteLength chars = source.utf8ByteSize := by
    rw [← byteLength_toList, hsource, byteLength_append]
  cases chars with
  | nil =>
      cases items with
      | nil => exact .done
      | cons item rest =>
          -- Such an item would begin where the text ends.
          have hbounds := bounds_of_standsIn (hstanding item List.mem_cons_self)
          have hle := hstart item List.mem_cons_self
          rw [byteLength_nil] at hsize
          omega
  | cons c rest =>
      -- Either an item begins with the first character, or its first byte is outside all of them.
      by_cases hfirst : ∃ item ∈ items, item.range.start = byteLength before
      · cases items with
        | nil => simp at hfirst
        | cons first others =>
            obtain ⟨hstands, hstanding⟩ := List.forall_mem_cons.1 hstanding
            obtain ⟨hlater, hordered⟩ := List.pairwise_cons.1 hordered
            have hat := start_of_ordered (bounds_of_standsIn hstands).1 hlater
              (hstart first List.mem_cons_self) hfirst
            obtain ⟨taken, behind, hchars, hlength, htakes, hstop⟩ :=
              exists_takes_of_standsIn hsource hstands hat
            rw [hchars] at hsource ⊢
            refine .item htakes ?_
            rw [← byteLength_append]
            refine scan_of_standing (by rw [hsource, List.append_assoc]) hstanding hordered
              (fun item hitem => hstop ▸ hlater item hitem)
              (fun position hle hlt houtside => huncovered position ?_ hlt ?_)
            · rw [byteLength_append] at hle
              exact Nat.le_of_add_right_le hle
            · refine List.forall_mem_cons.2 ⟨fun hcontains => ?_, houtside⟩
              exact Nat.not_lt_of_le hle (hstop ▸ hcontains.2)
      · have hoff : ∀ item ∈ items, item.range.start ≠ byteLength before :=
          fun item hitem hat => hfirst ⟨item, hitem, hat⟩
        have hc := c.utf8Size_pos
        have hblank : isBlank c = true := by
          refine isBlank_of_blankAt hsource (huncovered _ (Nat.le_refl _) ?_ ?_)
          · rw [byteLength_cons] at hsize
            omega
          · exact fun item hitem hcontains =>
              hoff item hitem (Nat.le_antisymm hcontains.1 (hstart item hitem))
        refine .blank hblank ?_
        rw [← byteLength_append]
        refine scan_of_standing (by rw [hsource, List.append_assoc, List.singleton_append])
          hstanding hordered
          (fun item hitem => byteLength_le_start hsource (hstanding item hitem)
            (hstart item hitem) (hoff item hitem))
          (fun position hle hlt houtside => huncovered position ?_ hlt houtside)
        rw [byteLength_append] at hle
        exact Nat.le_of_add_right_le hle
termination_by chars.length

/-- The characters of a text are cut into its items. -/
theorem scan_ofText (source : String) : Scan 0 source.toList (Lexeme.ofText source) :=
  scan_lexemesFrom 0 source.toList

/-- The items of a text stand in it, in order and with only blank characters between them. -/
theorem tokenizes_ofText (source : String) : Tokenizes source (Lexeme.ofText source) := by
  have hscan := scan_ofText source
  have hbounds := hscan.bounds
  rw [byteLength_toList, Nat.zero_add] at hbounds
  refine ⟨fun item hitem => (hbounds item hitem).2.1, fun item hitem => (hbounds item hitem).2.2,
    hscan.ordered, fun position hlt houtside => ?_, fun item hitem => ?_⟩
  · rw [← byteLength_toList, ← Nat.zero_add (byteLength source.toList)] at hlt
    obtain ⟨before, c, behind, hsource, hblank, hcontains⟩ :=
      hscan.uncovered (Nat.zero_le _) hlt houtside
    rw [Nat.zero_add] at hcontains
    have hsplit : source.toList = before ++ ([c] ++ behind) := hsource
    exact ⟨c, _, slice?_of_eq_append hsplit, hcontains, hblank⟩
  · obtain ⟨front, after, hitems⟩ := List.append_of_mem hitem
    rw [hitems] at hscan
    obtain ⟨before, taken, behind, hsource, htakes, -⟩ := hscan.exists_takes
    rw [Nat.zero_add] at htakes
    exact standsIn_iff.2 ⟨before, taken, behind, hsource, htakes⟩

end Lexer

namespace Lexeme

open Lexer

/-- The items of a part of a text are those that its characters are cut into within the text. -/
theorem ofText_of_scan {before taken : List Char} {items : List Lexeme}
    (h : Scan (byteLength before) taken items) :
    ofText (String.ofList taken) = items.map (move (· - byteLength before)) := by
  have hmoved : Scan 0 taken (items.map (move (· - byteLength before))) :=
    h.move fun length => by omega
  rw [ofText, String.toList_ofList]
  exact (scan_iff.1 hmoved).symm

/-- The items of a text behind one of them are the items of the text that is left. -/
theorem ofText_behind {source : String} {front after : List Lexeme} {item : Lexeme}
    (h : ofText source = front ++ item :: after) :
    ∃ rest, slice? source ⟨item.range.stop, source.utf8ByteSize⟩ = some rest ∧
      ofText rest = after.map (move (· - item.range.stop)) := by
  have hscan := scan_ofText source
  rw [h] at hscan
  obtain ⟨before, taken, behind, hsource, htakes, hafter⟩ := hscan.exists_takes
  rw [Nat.zero_add] at htakes hafter
  have hstop : item.range.stop = byteLength (before ++ taken) := by
    rw [htakes.range_eq.1, byteLength_append]
  have hsplit : source.toList = (before ++ taken) ++ (behind ++ []) := by simpa using hsource
  have hslice := slice?_of_eq_append hsplit
  have hsize : byteLength (before ++ taken) + byteLength behind = source.utf8ByteSize := by
    rw [← byteLength_append, List.append_assoc, ← hsource, byteLength_toList]
  rw [← byteLength_append] at hafter
  rw [hsize] at hslice
  rw [hstop]
  exact ⟨String.ofList behind, hslice, ofText_of_scan hafter⟩

/-- The items of the part of a text from one of its items to another are the items from the one to
the other. -/
theorem ofText_between {source : String} {front run after : List Lexeme} {first last : Lexeme}
    (h : ofText source = front ++ (run ++ after)) (hfirst : run.head? = some first)
    (hlast : run.getLast? = some last) :
    ∃ text, slice? source ⟨first.range.start, last.range.stop⟩ = some text ∧
      ofText text = run.map (move (· - first.range.start)) := by
  obtain ⟨others, rfl⟩ := List.head?_eq_some_iff.1 hfirst
  have hscan := scan_ofText source
  rw [h, List.cons_append] at hscan
  obtain ⟨before, taken, behind, hsource, htakes, hafter⟩ := hscan.exists_takes
  rw [Nat.zero_add] at htakes hafter
  have hstart : first.range.start = byteLength before := by rw [htakes.range_eq.1]
  have hbehind : Scan (byteLength before) (taken ++ behind) ((first :: others) ++ after) :=
    .item htakes hafter
  obtain ⟨marked, rest, hmarked, hrun, hstop⟩ := hbehind.exists_front
  rw [hmarked] at hsource
  rw [hstart, hstop last hlast]
  exact ⟨String.ofList marked, slice?_of_eq_append hsource, ofText_of_scan hrun⟩

/-- The items of a text are those that longest match gives: they stand in the text, in order and
with only blank characters between them, and no other items do. Behind each of them, reading goes on
as at the beginning of a text. -/
theorem ofText_tokenizes (source : String) :
    (∀ items, Tokenizes source items ↔ items = ofText source) ∧
    ∀ front item after, ofText source = front ++ item :: after →
      ∃ rest, slice? source ⟨item.range.stop, source.utf8ByteSize⟩ = some rest ∧
        ofText rest = after.map (move (· - item.range.stop)) := by
  refine ⟨fun items => ⟨fun h => ?_, ?_⟩, fun front item after => ofText_behind⟩
  · have hsource : source.toList = [] ++ source.toList := rfl
    exact scan_iff.1 <| scan_of_standing hsource h.standing h.ordered
      (fun _ _ => Nat.zero_le _) fun position _ => h.uncovered position
  · rintro rfl
    exact tokenizes_ofText source

/-- Digits end in front of a letter, and a keyword is no beginning of a name. -/
example : (ofText "3Enums≥").map token? = [some (.number "3"), some (.name "Enums"), none] := by
  decide +kernel

end Lexeme

end ArrayShape
