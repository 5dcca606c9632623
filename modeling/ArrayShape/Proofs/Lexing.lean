import ArrayShape.Token.Lexer

/-!
# Tokens and the texts they are read from

`Token.Proper` describes the tokens that a text can hold: `lexemesFrom_proper` says that no others
are read. In the other direction, `spell` writes tokens one after another with a space behind each
comma, and `lexemesFrom_spell` says that the items of the written text are the tokens again,
provided that no two words stand next to each other.
-/

namespace ArrayShape

/-- The token of an item, unless it is a stray character. -/
def Lexeme.token? : Lexeme → Option Token
  | .token found _ => some found
  | .stray _ => none

/-- The tokens of a text, in order. -/
def Token.ofText (source : String) : List Token :=
  (Lexeme.ofText source).filterMap Lexeme.token?

namespace Text

/-- A letter, with any number of letters, digits and underscores behind it. -/
def isIdentifier (text : String) : Bool :=
  match text.toList with
  | [] => false
  | c :: rest => c.isAlpha && rest.all isWordChar

/-- The characters do not go on with a letter, a digit or an underscore. -/
def Delimited (chars : List Char) : Prop :=
  ∀ c ∈ chars.head?, isWordChar c = false

@[simp] theorem delimited_nil : Delimited [] := by
  simp [Delimited]

@[simp] theorem delimited_cons {c : Char} {rest : List Char} :
    Delimited (c :: rest) ↔ isWordChar c = false := by
  simp [Delimited]

/-- A run of characters of a kind ends where no further character of the kind follows. -/
theorem takeWhile_run {p : Char → Bool} {run rest : List Char} (hrun : ∀ c ∈ run, p c = true)
    (hrest : ∀ c ∈ rest.head?, p c = false) : (run ++ rest).takeWhile p = run := by
  rw [List.takeWhile_append_of_pos hrun]
  cases rest with
  | nil => simp
  | cons c tail => simp [hrest c rfl]

/-- What is left behind such a run are the characters that follow it. -/
theorem dropWhile_run {p : Char → Bool} {run rest : List Char} (hrun : ∀ c ∈ run, p c = true)
    (hrest : ∀ c ∈ rest.head?, p c = false) : (run ++ rest).dropWhile p = rest := by
  rw [List.dropWhile_append_of_pos hrun]
  cases rest with
  | nil => simp
  | cons c tail => simp [hrest c rfl]

/-- Digits are characters of words. -/
theorem isWordChar_of_isDigit {c : Char} (h : c.isDigit = true) : isWordChar c = true := by
  simp [isWordChar, Char.isAlphanum, h]

/-- Letters are code points from `A` to `z`. -/
theorem toNat_of_isAlpha {c : Char} (h : c.isAlpha = true) : 65 ≤ c.toNat ∧ c.toNat ≤ 122 := by
  change (decide (_ ∧ _) || (decide _ && decide _)) = true at h
  simp only [Bool.or_eq_true, Bool.and_eq_true, decide_eq_true_eq, UInt32.le_iff_toNat_le,
    ge_iff_le] at h
  have hA : ('A' : Char).val.toNat = 65 := rfl
  have hZ : ('Z' : Char).val.toNat = 90 := rfl
  have ha : ('a' : Char).val.toNat = 97 := rfl
  have hz : ('z' : Char).val.toNat = 122 := rfl
  show 65 ≤ c.val.toNat ∧ c.val.toNat ≤ 122
  omega

/-- Digits are code points from `0` to `9`. -/
theorem toNat_of_isDigit {c : Char} (h : c.isDigit = true) : 48 ≤ c.toNat ∧ c.toNat ≤ 57 := by
  simp only [Char.isDigit, Bool.and_eq_true, decide_eq_true_eq, UInt32.le_iff_toNat_le,
    ge_iff_le] at h
  exact h

/-- Digits are not letters. -/
theorem not_isAlpha_of_isDigit {c : Char} (h : c.isDigit = true) : c.isAlpha = false := by
  refine Bool.eq_false_iff.2 fun halpha => ?_
  have hdigit := toNat_of_isDigit h
  have hletter := toNat_of_isAlpha halpha
  omega

end Text

namespace Token

/-- A token that a text can hold: names are identifiers and no keywords, and numerals are digits. -/
def Proper : Token → Prop
  | .name text => Text.isIdentifier text = true ∧ Keyword.ofText? text = none
  | .number digits => digits.toList ≠ [] ∧ ∀ c ∈ digits.toList, c.isDigit = true
  | .keyword _ | .comma | .equals | .openParen | .closeParen => True

instance : DecidablePred Proper
  | .name _ => inferInstanceAs (Decidable (_ ∧ _))
  | .number digits =>
    -- The digits are checked one by one, and not the characters that there are.
    have : Decidable (∀ c ∈ digits.toList, c.isDigit = true) := List.decidableBAll _ _
    inferInstanceAs (Decidable (_ ∧ _))
  | .keyword _ | .comma | .equals | .openParen | .closeParen => inferInstanceAs (Decidable True)

/-- A word is read as a proper token. -/
theorem proper_ofWord {word : String} (h : Text.isIdentifier word = true) :
    (ofWord word).Proper := by
  unfold ofWord
  split
  · trivial
  · next hnone => exact ⟨h, hnone⟩

/-- A word is a token that another character could make longer. -/
def isWord : Token → Bool
  | .name _ | .number _ | .keyword _ => true
  | .comma | .equals | .openParen | .closeParen => false

/-- The character would make the token longer if it stood behind it. -/
def extendedBy (c : Char) : Token → Bool
  | .name _ | .keyword _ => Text.isWordChar c
  | .number _ => c.isDigit
  | .comma | .equals | .openParen | .closeParen => false

/-- The token ends in front of the characters. -/
def EndsBefore (token : Token) (chars : List Char) : Prop :=
  ∀ c ∈ chars.head?, token.extendedBy c = false

/-- Every token ends in front of delimited characters, and a mark in front of any. -/
theorem endsBefore_of_delimited {token : Token} {chars : List Char}
    (h : token.isWord = true → Text.Delimited chars) : token.EndsBefore chars := by
  intro c hc
  cases token with
  | name | keyword => exact h rfl c hc
  | number =>
      refine Bool.eq_false_iff.2 fun hdigit => ?_
      have hword := h rfl c hc
      rw [Text.isWordChar_of_isDigit hdigit] at hword
      cases hword
  | comma | equals | openParen | closeParen => rfl

end Token

namespace Lexer

open Text

/-! ## Reading -/

/-- A cut takes no improper token. -/
theorem firstItem_proper {c : Char} {rest : List Char} {token : Token}
    (h : (firstItem c rest).item = .token token) : token.Proper := by
  unfold firstItem at h
  split at h
  · next hc =>
      simp only [Item.token.injEq] at h
      subst h
      refine Token.proper_ofWord ?_
      simp [isIdentifier, hc, -List.all_eq_true]
  · split at h
    · next hc =>
        simp only [Item.token.injEq] at h
        subst h
        have hdigits := List.all_eq_true.1 (List.all_takeWhile (l := rest) (p := Char.isDigit))
        simpa [Token.Proper, hc] using hdigits
    · unfold mark? at h
      split at h
      · next hmark =>
          cases h
          split at hmark <;> cases hmark <;> trivial
      · split at h <;> cases h

/-- A text holds no improper token. -/
theorem lexemesFrom_proper {offset : Nat} {chars : List Char} {token : Token} {range : ByteRange}
    (h : .token token range ∈ lexemesFrom offset chars) : token.Proper := by
  match chars with
  | [] => simp [lexemesFrom] at h
  | c :: rest =>
      have hlength := left_length_le c rest
      rw [lexemesFrom] at h
      simp only at h
      split at h
      · exact lexemesFrom_proper h
      · rcases List.mem_cons.1 h with h | h
        · cases h
        · exact lexemesFrom_proper h
      · next hitem =>
          rcases List.mem_cons.1 h with h | h
          · cases h
            exact firstItem_proper hitem
          · exact lexemesFrom_proper h
termination_by chars.length

/-! ## Writing -/

/-- An identifier in front of delimited characters is read as a whole. -/
theorem firstItem_identifier {text : String} {c : Char} {tail rest : List Char}
    (htext : text.toList = c :: tail) (hidentifier : isIdentifier text = true)
    (hrest : Delimited rest) :
    firstItem c (tail ++ rest) = ⟨.token (Token.ofWord text), text.toList, rest⟩ := by
  simp only [isIdentifier, htext, Bool.and_eq_true, List.all_eq_true] at hidentifier
  obtain ⟨hc, htail⟩ := hidentifier
  have htake := takeWhile_run htail hrest
  have hdrop := dropWhile_run htail hrest
  have hword : String.ofList (c :: tail) = text := by rw [← htext, String.ofList_toList]
  simp [firstItem, hc, htake, hdrop, hword, htext]

/-- A numeral in front of characters that do not go on with a digit is read as a whole. -/
theorem firstItem_digits {digits : String} {c : Char} {tail rest : List Char}
    (hdigits : digits.toList = c :: tail) (hall : ∀ d ∈ digits.toList, d.isDigit = true)
    (hrest : ∀ d ∈ rest.head?, d.isDigit = false) :
    firstItem c (tail ++ rest) = ⟨.token (.number digits), digits.toList, rest⟩ := by
  rw [hdigits, List.forall_mem_cons] at hall
  obtain ⟨hc, htail⟩ := hall
  have htake := takeWhile_run htail hrest
  have hdrop := dropWhile_run htail hrest
  have hword : String.ofList (c :: tail) = digits := by rw [← hdigits, String.ofList_toList]
  simp [firstItem, not_isAlpha_of_isDigit hc, hc, htake, hdrop, hword, hdigits]

/-- A keyword is an identifier. -/
theorem isIdentifier_keyword (reserved : Keyword) : isIdentifier reserved.text = true := by
  cases reserved <;> decide

/-- The first item of a proper token's characters is the token, if it ends there. -/
theorem firstItem_token {token : Token} (hproper : token.Proper) {rest : List Char}
    (hrest : token.EndsBefore rest) :
    ∃ c tail, token.text.toList = c :: tail ∧
      firstItem c (tail ++ rest) = ⟨.token token, token.text.toList, rest⟩ := by
  cases token with
  | name text =>
      obtain ⟨hidentifier, hfree⟩ := hproper
      cases htext : text.toList with
      | nil => simp [isIdentifier, htext] at hidentifier
      | cons c tail =>
          refine ⟨c, tail, htext, ?_⟩
          rw [firstItem_identifier htext hidentifier hrest, Token.ofWord, hfree, Token.text]
  | number digits =>
      obtain ⟨hne, hall⟩ := hproper
      cases hdigits : digits.toList with
      | nil => exact absurd hdigits hne
      | cons c tail =>
          exact ⟨c, tail, hdigits, firstItem_digits hdigits hall hrest⟩
  | keyword reserved =>
      have hidentifier := isIdentifier_keyword reserved
      cases htext : reserved.text.toList with
      | nil => simp [isIdentifier, htext] at hidentifier
      | cons c tail =>
          refine ⟨c, tail, htext, ?_⟩
          rw [firstItem_identifier htext hidentifier hrest, Token.ofWord,
            Keyword.ofText?_text, Token.text]
  | comma => exact ⟨',', [], rfl, rfl⟩
  | equals => exact ⟨'=', [], rfl, rfl⟩
  | openParen => exact ⟨'(', [], rfl, rfl⟩
  | closeParen => exact ⟨')', [], rfl, rfl⟩

/-- A proper token that ends in front of some characters is the first item before theirs. -/
theorem lexemesFrom_token {token : Token} (hproper : token.Proper) {rest : List Char}
    (hrest : token.EndsBefore rest) (offset : Nat) :
    let stop := offset + byteLength token.text.toList
    lexemesFrom offset (token.text.toList ++ rest) =
      .token token ⟨offset, stop⟩ :: lexemesFrom stop rest := by
  obtain ⟨c, tail, htext, hfirst⟩ := firstItem_token hproper hrest
  rw [htext, List.cons_append, lexemesFrom]
  simp only [hfirst, htext]

/-- A space is skipped. -/
theorem lexemesFrom_space (offset : Nat) (rest : List Char) :
    lexemesFrom offset (' ' :: rest) = lexemesFrom (offset + 1) rest := by
  rw [lexemesFrom]
  rfl

end Lexer

namespace Token

open Text Lexer

/-- The tokens of a text are proper. -/
theorem proper_of_mem_ofText {source : String} {token : Token} (h : token ∈ ofText source) :
    token.Proper := by
  obtain ⟨item, hitem, htoken⟩ := List.mem_filterMap.1 h
  cases item with
  | stray range => cases htoken
  | token found range =>
      cases htoken
      exact lexemesFrom_proper hitem

/-- The characters that are written for a token: its text, with a space behind a comma. -/
def spelling : Token → List Char
  | .comma => [',', ' ']
  | token => token.text.toList

/-- The characters that are written for tokens. -/
def spell (tokens : List Token) : List Char :=
  tokens.flatMap spelling

@[simp] theorem spell_nil : spell [] = [] := rfl

@[simp] theorem spell_cons (token : Token) (rest : List Token) :
    spell (token :: rest) = token.spelling ++ spell rest := rfl

@[simp] theorem spell_append (first second : List Token) :
    spell (first ++ second) = spell first ++ spell second :=
  List.flatMap_append

/-- Proper tokens of which no two words stand next to each other. -/
def Legible : List Token → Prop
  | [] => True
  | token :: rest =>
    token.Proper ∧ (token.isWord = true → ∀ next ∈ rest.head?, next.isWord = false) ∧ Legible rest

/-- The characters of a mark delimit a word. -/
theorem delimited_spelling {token : Token} (h : token.isWord = false) (rest : List Char) :
    Delimited (token.spelling ++ rest) := by
  cases token with
  | name | number | keyword => cases h
  | comma | equals | openParen | closeParen =>
      exact delimited_cons.2 (by decide)

/-- What is written behind a word delimits it. -/
theorem delimited_spell {tokens : List Token} (h : ∀ next ∈ tokens.head?, next.isWord = false) :
    Delimited (spell tokens) := by
  cases tokens with
  | nil => exact delimited_nil
  | cons token rest => exact delimited_spelling (h token rfl) _

/-- The items of written tokens are the tokens. -/
theorem lexemesFrom_spell {tokens : List Token} (h : Legible tokens) (offset : Nat) :
    (lexemesFrom offset (spell tokens)).map Lexeme.token? = tokens.map some := by
  induction tokens generalizing offset with
  | nil => simp [spell, lexemesFrom]
  | cons token rest ih =>
      obtain ⟨hproper, hnext, hrest⟩ := h
      have hends : token.EndsBefore (spell rest) :=
        endsBefore_of_delimited fun hword => delimited_spell (hnext hword)
      -- Only a comma is written with more characters than it is read from.
      by_cases hcomma : token = .comma
      · subst hcomma
        show (lexemesFrom offset (Token.comma.text.toList ++ ' ' :: spell rest)).map _ = _
        rw [lexemesFrom_token hproper (fun _ _ => rfl), lexemesFrom_space, List.map_cons,
          ih hrest]
        rfl
      · have hspelling : spell (token :: rest) = token.text.toList ++ spell rest := by
          cases token with
          | comma => exact absurd rfl hcomma
          | _ => rfl
        rw [hspelling, lexemesFrom_token hproper hends, List.map_cons, ih hrest]
        rfl

end Token

end ArrayShape
