import ArrayShape.Proofs.Lexing

/-!
# Cutting a text by rule

`Lexer.Scan` is the relation between characters and their items by three rules: a blank character is
skipped, a proper token that cannot go on is an item, and so is a character that begins no token.
The rules do not say how a text is read, and `Lexer.scan_iff` says that they leave no choice. What
every cut preserves is then proved by induction on the rules: where the items stand, and that the
items of a part of a text are a part of its items.
-/

namespace ArrayShape

namespace Text

/-- Blank characters are control characters, the space, or no ASCII characters. -/
theorem toNat_of_isBlank {c : Char} (h : isBlank c = true) : c.toNat ≤ 32 ∨ 133 ≤ c.toNat := by
  simp only [isBlank, blankIntervals, List.any_cons, List.any_nil, Bool.or_false, Bool.or_eq_true,
    Bool.and_eq_true, decide_eq_true_eq] at h
  omega

/-- A character goes on with a token that begins with another one. -/
def continues (first c : Char) : Bool :=
  if first.isAlpha then isWordChar c else if first.isDigit then c.isDigit else false

/-- What is left behind a run of characters of a kind does not go on with the kind. -/
theorem head?_dropWhile_eq_false {p : Char → Bool} {chars : List Char} :
    ∀ c ∈ (chars.dropWhile p).head?, p c = false := by
  intro c hc
  have hnot := List.head?_dropWhile_not p chars
  rw [hc] at hnot
  exact hnot

/-- An identifier begins with a letter, with which its other characters go on. -/
theorem exists_of_isIdentifier {text : String} (h : isIdentifier text = true) :
    ∃ first tail, text.toList = first :: tail ∧ first.isAlpha = true ∧
      ∀ c ∈ tail, isWordChar c = true := by
  cases htext : text.toList with
  | nil => simp [isIdentifier, htext] at h
  | cons first tail =>
      simp only [isIdentifier, htext, Bool.and_eq_true, List.all_eq_true] at h
      exact ⟨first, tail, rfl, h⟩

end Text

namespace Token

open Text Lexer

/-! ## How tokens begin and go on -/

/-- Some token that a text can hold begins with the character. -/
def Begins (c : Char) : Prop :=
  ∃ token : Token, token.Proper ∧ token.text.toList.head? = some c

/-- The first character of a proper token decides which characters go on with it. -/
theorem exists_continues {token : Token} (h : token.Proper) :
    ∃ first tail, token.text.toList = first :: tail ∧
      (∀ c, token.extendedBy c = continues first c) ∧ ∀ c ∈ tail, continues first c = true := by
  have identifier {text : String} (hidentifier : isIdentifier text = true) :
      ∃ first tail, text.toList = first :: tail ∧
        (∀ c, isWordChar c = continues first c) ∧ ∀ c ∈ tail, continues first c = true := by
    obtain ⟨first, tail, htext, halpha, htail⟩ := exists_of_isIdentifier hidentifier
    refine ⟨first, tail, htext, fun c => ?_, fun c hc => ?_⟩
    · rw [continues, if_pos halpha]
    · rw [continues, if_pos halpha, htail c hc]
  cases token with
  | name text => exact identifier h.1
  | keyword reserved => exact identifier (isIdentifier_keyword reserved)
  | number digits =>
      obtain ⟨hne, hall⟩ := h
      cases hdigits : digits.toList with
      | nil => exact absurd hdigits hne
      | cons first tail =>
          rw [hdigits, List.forall_mem_cons] at hall
          have halpha := Bool.eq_false_iff.1 (not_isAlpha_of_isDigit hall.1)
          refine ⟨first, tail, hdigits, fun c => ?_, fun c hc => ?_⟩
          · rw [continues, if_neg halpha, if_pos hall.1]
            rfl
          · rw [continues, if_neg halpha, if_pos hall.1, hall.2 c hc]
  | comma | equals | openParen | closeParen => exact ⟨_, [], rfl, fun _ => rfl, by simp⟩

/-- A proper token that goes on behind another one goes on with a character that extends it. -/
theorem extendedBy_of_text {token other : Token} (hproper : token.Proper) (hother : other.Proper)
    {c : Char} {more : List Char} (h : other.text.toList = token.text.toList ++ c :: more) :
    token.extendedBy c = true := by
  obtain ⟨first, tail, htext, hextended, -⟩ := exists_continues hproper
  obtain ⟨first', tail', htext', -, htail⟩ := exists_continues hother
  rw [htext, htext', List.cons_append, List.cons.injEq] at h
  obtain ⟨rfl, rfl⟩ := h
  rw [hextended]
  exact htail c (by simp)

/-- No proper token that begins where one ends in front of other characters is longer. -/
theorem byteLength_text_le {token other : Token} (hproper : token.Proper) (hother : other.Proper)
    {behind rest : List Char} (hends : token.EndsBefore behind)
    (h : token.text.toList ++ behind = other.text.toList ++ rest) :
    byteLength other.text.toList ≤ byteLength token.text.toList := by
  obtain ⟨more, hotherText, hbehind⟩ | ⟨more, htext, -⟩ := List.append_eq_append_iff.1 h
  · cases more with
    | nil => exact Nat.le_of_eq (by rw [hotherText, List.append_nil])
    | cons c more =>
        have hextended := extendedBy_of_text hproper hother hotherText
        rw [hends c (by rw [hbehind]; rfl)] at hextended
        cases hextended
  · rw [htext, byteLength_append]
    exact Nat.le_add_right _ _

/-- A proper token is a keyword exactly when it is written as the keyword. -/
theorem eq_keyword_iff {token : Token} (h : token.Proper) (reserved : Keyword) :
    token = .keyword reserved ↔ token.text = reserved.text := by
  constructor
  · rintro rfl
    rfl
  · intro htext
    obtain ⟨first, tail, hfirst, halpha, -⟩ :=
      exists_of_isIdentifier (isIdentifier_keyword reserved)
    cases token with
    | name text =>
        have hfree := h.2
        rw [show text = reserved.text from htext, Keyword.ofText?_text] at hfree
        cases hfree
    | number digits =>
        have hdigit := h.2 first (by rw [show digits = reserved.text from htext, hfirst]; simp)
        rw [not_isAlpha_of_isDigit hdigit] at halpha
        cases halpha
    | keyword other =>
        have hother := Keyword.ofText?_text other
        rw [show other.text = reserved.text from htext, Keyword.ofText?_text] at hother
        cases hother
        rfl
    | comma | equals | openParen | closeParen =>
        revert htext
        cases reserved <;> decide

/-- The characters of words go on with a word. -/
theorem extendedBy_ofWord (word : String) (c : Char) :
    (ofWord word).extendedBy c = isWordChar c := by
  unfold ofWord
  split <;> rfl

/-- A character that begins a token is the first of a proper token that ends in front of the
characters behind it. -/
theorem Begins.exists_token {c : Char} (h : Begins c) (rest : List Char) :
    ∃ token : Token, ∃ behind, token.Proper ∧ token.EndsBefore behind ∧
      c :: rest = token.text.toList ++ behind := by
  by_cases halpha : c.isAlpha = true
  · refine ⟨ofWord (String.ofList (c :: rest.takeWhile isWordChar)),
      rest.dropWhile isWordChar, proper_ofWord ?_, fun d hd => ?_, ?_⟩
    · simp [isIdentifier, halpha, -List.all_eq_true]
    · rw [extendedBy_ofWord]
      exact head?_dropWhile_eq_false d hd
    · simp
  · by_cases hdigit : c.isDigit = true
    · refine ⟨.number (String.ofList (c :: rest.takeWhile Char.isDigit)),
        rest.dropWhile Char.isDigit, ⟨by simp, ?_⟩, head?_dropWhile_eq_false, by simp [text]⟩
      have hdigits := List.all_eq_true.1 (List.all_takeWhile (l := rest) (p := Char.isDigit))
      simpa [hdigit] using hdigits
    · -- Nothing goes on with any other character, so that it is a token alone.
      have hcontinues (d : Char) : continues c d = false := by
        rw [continues, if_neg halpha, if_neg hdigit]
      obtain ⟨token, hproper, hhead⟩ := h
      obtain ⟨first, tail, htext, hextended, htail⟩ := exists_continues hproper
      rw [htext, List.head?_cons, Option.some.injEq] at hhead
      subst hhead
      refine ⟨token, rest, hproper, fun d _ => (hextended d).trans (hcontinues d), ?_⟩
      cases tail with
      | nil => rw [htext, List.singleton_append]
      | cons d tail =>
          have hd := htail d (by simp)
          rw [hcontinues] at hd
          cases hd

end Token

namespace Lexer

open Text

/-! ## First characters -/

/-- A mark begins a token. -/
theorem begins_of_mark? {c : Char} {token : Token} (h : mark? c = some token) : Token.Begins c := by
  refine ⟨token, ?_⟩
  unfold mark? at h
  split at h <;> cases h <;> exact ⟨trivial, rfl⟩

/-- A blank character begins no token. -/
theorem not_begins_of_isBlank {c : Char} (hblank : isBlank c = true) : ¬ Token.Begins c := by
  intro h
  have hc : 40 ≤ c.toNat ∧ c.toNat ≤ 122 := by
    obtain ⟨token, hproper, hhead⟩ := h
    have identifier {text : String} (hidentifier : isIdentifier text = true)
        (hhead : text.toList.head? = some c) : 40 ≤ c.toNat ∧ c.toNat ≤ 122 := by
      obtain ⟨first, tail, htext, halpha, -⟩ := exists_of_isIdentifier hidentifier
      rw [htext, List.head?_cons, Option.some.injEq] at hhead
      have hletter := toNat_of_isAlpha halpha
      subst hhead
      omega
    cases token with
    | name text => exact identifier hproper.1 hhead
    | keyword reserved => exact identifier (isIdentifier_keyword reserved) hhead
    | number digits =>
        have hdigit := toNat_of_isDigit (hproper.2 c (List.mem_of_mem_head? hhead))
        omega
    | comma | equals | openParen | closeParen => cases hhead; decide
  have houtside := toNat_of_isBlank hblank
  omega

/-- A character that begins no token is an item alone. -/
theorem firstItem_of_not_begins {c : Char} (h : ¬ Token.Begins c) (rest : List Char) :
    firstItem c rest = ⟨if isBlank c then .blank else .stray, [c], rest⟩ := by
  unfold firstItem
  split
  · next halpha =>
      refine absurd ⟨.ofWord (String.ofList [c]), Token.proper_ofWord ?_, ?_⟩ h
      · simp [isIdentifier, halpha]
      · simp
  · split
    · next hdigit =>
        refine absurd ⟨.number (String.ofList [c]), ⟨by simp, by simpa using hdigit⟩, ?_⟩ h
        simp [Token.text]
    · split
      · next hmark => exact absurd (begins_of_mark? hmark) h
      · rfl

/-- A blank character is skipped. -/
theorem lexemesFrom_blank {c : Char} (h : isBlank c = true) (offset : Nat) (rest : List Char) :
    lexemesFrom offset (c :: rest) = lexemesFrom (offset + byteLength [c]) rest := by
  rw [lexemesFrom, firstItem_of_not_begins (not_begins_of_isBlank h), if_pos h]

/-- A character that is not blank and begins no token is a stray item. -/
theorem lexemesFrom_stray {c : Char} (hblank : isBlank c = false) (hbegins : ¬ Token.Begins c)
    (offset : Nat) (rest : List Char) :
    lexemesFrom offset (c :: rest) =
      .stray ⟨offset, offset + byteLength [c]⟩ :: lexemesFrom (offset + byteLength [c]) rest := by
  rw [lexemesFrom, firstItem_of_not_begins hbegins, if_neg (Bool.eq_false_iff.1 hblank)]

end Lexer

/-! ## Cutting by rule -/

/-- An item takes the characters from a byte offset on that stand in front of the others. -/
inductive Lexeme.Takes (offset : Nat) (behind : List Char) : List Char → Lexeme → Prop where
  /-- A token is proper, and no character behind it goes on with it. -/
  | token {found : Token} (hproper : found.Proper) (hends : found.EndsBefore behind) :
    Takes offset behind found.text.toList
      (.token found ⟨offset, offset + Text.byteLength found.text.toList⟩)
  /-- A stray character is not blank, and begins no token. -/
  | stray {c : Char} (hblank : Text.isBlank c = false) (hbegins : ¬ Token.Begins c) :
    Takes offset behind [c] (.stray ⟨offset, offset + Text.byteLength [c]⟩)

namespace Lexeme.Takes

open Text

variable {offset : Nat} {taken behind : List Char} {item : Lexeme}

/-- The range of an item is the range of the characters that it takes, which are not empty. -/
theorem range_eq (h : item.Takes offset behind taken) :
    item.range = ⟨offset, offset + byteLength taken⟩ ∧ 0 < byteLength taken := by
  cases h with
  | token hproper hends =>
      refine ⟨rfl, byteLength_pos ?_⟩
      obtain ⟨first, tail, htext, -⟩ := Token.exists_continues hproper
      rw [htext]
      exact List.cons_ne_nil _ _
  | stray hblank hbegins => exact ⟨rfl, byteLength_pos (List.cons_ne_nil _ _)⟩

/-- An item takes the same characters when a text ends earlier behind it. -/
theorem of_append {more : List Char} (h : item.Takes offset (behind ++ more) taken) :
    item.Takes offset behind taken := by
  cases h with
  | token hproper hends =>
      refine .token hproper fun c hc => hends c ?_
      cases behind with
      | nil => cases hc
      | cons d rest => exact hc
  | stray hblank hbegins => exact .stray hblank hbegins

/-- An item takes the same characters when delimited ones stand behind the others. -/
theorem append {rest : List Char} (h : item.Takes offset behind taken) (hrest : Delimited rest) :
    item.Takes offset (behind ++ rest) taken := by
  cases h with
  | token hproper hends =>
      refine .token hproper fun c hc => ?_
      cases behind with
      | nil => exact Token.endsBefore_of_delimited (fun _ => hrest) c hc
      | cons d others => exact hends c hc
  | stray hblank hbegins => exact .stray hblank hbegins

/-- An item takes the same characters when they begin at another offset. -/
theorem move {place : Nat → Nat} {target : Nat} (h : item.Takes offset behind taken)
    (hplace : ∀ length, place (offset + length) = target + length) :
    (item.move place).Takes target behind taken := by
  have hrange (length : Nat) :
      ByteRange.move place ⟨offset, offset + length⟩ = ⟨target, target + length⟩ := by
    simp only [ByteRange.move, hplace, ByteRange.mk.injEq, and_true]
    exact hplace 0
  cases h with
  | token hproper hends =>
      rw [Lexeme.move, hrange]
      exact .token hproper hends
  | stray hblank hbegins =>
      rw [Lexeme.move, hrange]
      exact .stray hblank hbegins

end Lexeme.Takes

namespace Lexer

open Text

/-- Characters from a byte offset on are cut into items. -/
inductive Scan : Nat → List Char → List Lexeme → Prop where
  | done {offset : Nat} : Scan offset [] []
  /-- A blank character is skipped. -/
  | blank {offset : Nat} {c : Char} {rest : List Char} {items : List Lexeme}
    (hblank : isBlank c = true) (hrest : Scan (offset + byteLength [c]) rest items) :
    Scan offset (c :: rest) items
  /-- An item takes the characters at the front. -/
  | item {offset : Nat} {taken behind : List Char} {item : Lexeme} {items : List Lexeme}
    (htakes : item.Takes offset behind taken)
    (hrest : Scan (offset + byteLength taken) behind items) :
    Scan offset (taken ++ behind) (item :: items)

/-- The items that are read are cut by the rules. -/
theorem scan_lexemesFrom (offset : Nat) (chars : List Char) :
    Scan offset chars (lexemesFrom offset chars) := by
  cases chars with
  | nil =>
      rw [lexemesFrom]
      exact .done
  | cons c rest =>
      cases hblank : isBlank c with
      | true =>
          rw [lexemesFrom_blank hblank]
          exact .blank hblank (scan_lexemesFrom _ rest)
      | false =>
          by_cases hbegins : Token.Begins c
          · obtain ⟨token, behind, hproper, hends, hchars⟩ := hbegins.exists_token rest
            have hlength : behind.length ≤ rest.length := by
              obtain ⟨first, tail, htext, -⟩ := Token.exists_continues hproper
              rw [htext, List.cons_append, List.cons.injEq] at hchars
              rw [hchars.2, List.length_append]
              exact Nat.le_add_left _ _
            rw [hchars, lexemesFrom_token hproper hends]
            exact .item (.token hproper hends) (scan_lexemesFrom _ behind)
          · have htakes : (Lexeme.stray ⟨offset, offset + byteLength [c]⟩).Takes offset rest [c] :=
              .stray hblank hbegins
            rw [lexemesFrom_stray hblank hbegins]
            exact .item htakes (scan_lexemesFrom _ rest)
termination_by chars.length

/-- The rules cut characters into the items that are read, and into no others. -/
theorem scan_iff {offset : Nat} {chars : List Char} {items : List Lexeme} :
    Scan offset chars items ↔ items = lexemesFrom offset chars := by
  constructor
  · intro h
    induction h with
    | done => rw [lexemesFrom]
    | blank hblank _ ih => rw [lexemesFrom_blank hblank, ih]
    | item htakes _ ih =>
        cases htakes with
        | token hproper hends => rw [lexemesFrom_token hproper hends, ih]
        | stray hblank hbegins =>
            rw [List.singleton_append, lexemesFrom_stray hblank hbegins, ih]
  · rintro rfl
    exact scan_lexemesFrom offset chars

variable {offset : Nat} {chars : List Char} {items : List Lexeme}

/-- The items of characters lie in their range, and none is empty. -/
theorem Scan.bounds (h : Scan offset chars items) :
    ∀ item ∈ items, offset ≤ item.range.start ∧ item.range.start < item.range.stop ∧
      item.range.stop ≤ offset + byteLength chars := by
  induction h with
  | done => simp
  | @blank offset c rest items hblank _ ih =>
      intro item hitem
      have hbounds := ih item hitem
      simp only [byteLength_cons, byteLength_nil] at hbounds ⊢
      omega
  | @item offset taken behind first items htakes _ ih =>
      obtain ⟨hrange, hpos⟩ := htakes.range_eq
      rw [byteLength_append]
      intro item hitem
      rcases List.mem_cons.1 hitem with rfl | hitem
      · rw [hrange]
        dsimp only
        omega
      · have hbounds := ih item hitem
        omega

/-- Each item begins behind the ones before it. -/
theorem Scan.ordered (h : Scan offset chars items) :
    items.Pairwise fun earlier later => earlier.range.stop ≤ later.range.start := by
  induction h with
  | done => exact .nil
  | blank hblank _ ih => exact ih
  | item htakes hrest ih =>
      refine .cons (fun later hlater => ?_) ih
      rw [htakes.range_eq.1]
      exact (hrest.bounds later hlater).1

/-- A byte outside all items belongs to a blank character. -/
theorem Scan.uncovered (h : Scan offset chars items) {position : Nat} (hstart : offset ≤ position)
    (hstop : position < offset + byteLength chars)
    (houtside : ∀ item ∈ items, ¬ item.range.Contains position) :
    ∃ before c behind, chars = before ++ c :: behind ∧ isBlank c = true ∧
      offset + byteLength before ≤ position ∧
      position < offset + byteLength before + byteLength [c] := by
  induction h with
  | done =>
      rw [byteLength_nil] at hstop
      omega
  | @blank offset c rest items hblank _ ih =>
      by_cases hposition : position < offset + byteLength [c]
      · exact ⟨[], c, rest, rfl, hblank, hstart, hposition⟩
      · rw [byteLength_cons, ← Nat.add_assoc] at hstop
        obtain ⟨before, d, behind, rfl, hd, hbounds⟩ :=
          ih (Nat.le_of_not_lt hposition) hstop houtside
        refine ⟨c :: before, d, behind, rfl, hd, ?_⟩
        rw [byteLength_cons, ← Nat.add_assoc]
        exact hbounds
  | @item offset taken behind first items htakes _ ih =>
      obtain ⟨hfirst, houtside⟩ := List.forall_mem_cons.1 houtside
      rw [htakes.range_eq.1] at hfirst
      have hposition : offset + byteLength taken ≤ position :=
        Nat.le_of_not_lt fun hlt => hfirst ⟨hstart, hlt⟩
      rw [byteLength_append, ← Nat.add_assoc] at hstop
      obtain ⟨before, d, behind, rfl, hd, hbounds⟩ := ih hposition hstop houtside
      refine ⟨taken ++ before, d, behind, (List.append_assoc ..).symm, hd, ?_⟩
      rw [byteLength_append, ← Nat.add_assoc]
      exact hbounds

/-- Characters can be cut in front of each of their items and behind it. -/
theorem Scan.exists_takes {front after : List Lexeme} {item : Lexeme}
    (h : Scan offset chars (front ++ item :: after)) :
    ∃ before taken behind, chars = before ++ (taken ++ behind) ∧
      item.Takes (offset + byteLength before) behind taken ∧
      Scan (offset + byteLength before + byteLength taken) behind after := by
  generalize hitems : front ++ item :: after = items at h
  induction h generalizing front with
  | done => simp at hitems
  | @blank offset c rest items hblank _ ih =>
      obtain ⟨before, taken, behind, rfl, htakes, hafter⟩ := ih hitems
      refine ⟨c :: before, taken, behind, rfl, ?_⟩
      rw [byteLength_cons, ← Nat.add_assoc]
      exact ⟨htakes, hafter⟩
  | @item offset taken behind first items htakes hrest ih =>
      cases front with
      | nil =>
          cases hitems
          exact ⟨[], taken, behind, rfl, htakes, hrest⟩
      | cons head front =>
          cases hitems
          obtain ⟨before, marked, tail, rfl, hmarked, hafter⟩ := ih rfl
          refine ⟨taken ++ before, marked, tail, (List.append_assoc ..).symm, ?_⟩
          rw [byteLength_append, ← Nat.add_assoc]
          exact ⟨hmarked, hafter⟩

/-- The items at the front of those of characters are the items of the characters up to the last of
them. -/
theorem Scan.exists_front {front after : List Lexeme} (h : Scan offset chars (front ++ after)) :
    ∃ taken rest, chars = taken ++ rest ∧ Scan offset taken front ∧
      ∀ last ∈ front.getLast?, last.range.stop = offset + byteLength taken := by
  generalize hitems : front ++ after = items at h
  induction h generalizing front with
  | done =>
      obtain ⟨rfl, -⟩ := List.append_eq_nil_iff.1 hitems
      exact ⟨[], [], rfl, .done, by simp⟩
  | @blank offset c rest items hblank _ ih =>
      cases front with
      | nil => exact ⟨[], c :: rest, rfl, .done, by simp⟩
      | cons head front =>
          obtain ⟨taken, left, rfl, hscan, hlast⟩ := ih hitems
          refine ⟨c :: taken, left, rfl, .blank hblank hscan, ?_⟩
          rw [byteLength_cons, ← Nat.add_assoc]
          exact hlast
  | @item offset taken behind first items htakes hrest ih =>
      cases front with
      | nil => exact ⟨[], taken ++ behind, rfl, .done, by simp⟩
      | cons head front =>
          cases hitems
          -- A single item ends where its characters do, and several end where the others end.
          cases front with
          | nil =>
              have hends : first.Takes offset [] taken := htakes.of_append
              have hscan := Scan.item hends .done
              rw [List.append_nil] at hscan
              refine ⟨taken, behind, rfl, hscan, fun last hlast => ?_⟩
              cases hlast
              show first.range.stop = _
              rw [htakes.range_eq.1]
          | cons second front =>
              obtain ⟨more, left, rfl, hscan, hlast⟩ := ih rfl
              refine ⟨taken ++ more, left, (List.append_assoc ..).symm,
                .item htakes.of_append hscan, ?_⟩
              rw [byteLength_append, ← Nat.add_assoc]
              exact hlast

/-- The cuts are the same when the characters begin at another offset. -/
theorem Scan.move {place : Nat → Nat} {target : Nat} (h : Scan offset chars items)
    (hplace : ∀ length, place (offset + length) = target + length) :
    Scan target chars (items.map (Lexeme.move place)) := by
  induction h generalizing target with
  | done => exact .done
  | blank hblank _ ih =>
      refine .blank hblank (ih fun length => ?_)
      rw [Nat.add_assoc, hplace, Nat.add_assoc]
  | item htakes _ ih =>
      refine .item (htakes.move hplace) (ih fun length => ?_)
      rw [Nat.add_assoc, hplace, Nat.add_assoc]

end Lexer

end ArrayShape
