import ArrayShape.SymbolTable

/-!
# Interners

An interner keeps texts in a table and gives each text a key of its own, which is cheap to compare.
`Interner` holds what a table can do and what is relied on: a text that is entered gets the key that
it has already, or else a key that no text has. How new keys are chosen is left open; a
`SymbolTable` numbers them (`SymbolTable.interner`). `run` asks for texts one after another.
-/

namespace ArrayShape

/-- What entering a text does, told by the texts that keys have before and after it. -/
inductive Entry {Key : Type} (before : Key → Option String) (text : String) (key : Key)
    (after : Key → Option String) : Prop
  /-- The key has the text already, and nothing changes. -/
  | known (has : before key = some text) (same : after = before)
  /-- No key has the text. A key without a text takes it, and no other key changes. -/
  | fresh (missing : ∀ other, before other ≠ some text) (free : before key = none)
      (takes : after key = some text) (others : ∀ other, other ≠ key → after other = before other)

/-- A way to keep texts in tables, each under a key. -/
structure Interner (Table Key : Type) where
  /-- The table without texts. -/
  empty : Table
  /-- The text of a key. -/
  text? : Table → Key → Option String
  /-- The key of a text that is in the table, which is not changed. -/
  get? : Table → String → Option Key
  /-- Enters a text, and gives its key. -/
  intern : Table → String → Key × Table
  /-- Enters a text that lasts as long as the program, and gives its key. -/
  internStatic : Table → String → Key × Table
  text?_empty (key : Key) : text? empty key = none
  /-- A key that is found has the text. -/
  text?_of_get? {table : Table} {text : String} {key : Key} :
    get? table text = some key → text? table key = some text
  /-- If no key is found, no key has the text. -/
  text?_ne_of_get? {table : Table} {text : String} :
    get? table text = none → ∀ key, text? table key ≠ some text
  intern_entry (table : Table) (text : String) :
    Entry (text? table) text (intern table text).1 (text? (intern table text).2)
  internStatic_entry (table : Table) (text : String) :
    Entry (text? table) text (internStatic table text).1 (text? (internStatic table text).2)

namespace SymbolTable

/-- Entering a text gives the symbol of the text, or else the next symbol. -/
theorem intern_entry (table : SymbolTable) (text : String) :
    Entry table.text? text (table.intern text).1 (table.intern text).2.text? := by
  unfold intern
  split
  · next h =>
      have hlt : table.texts.idxOf text < table.texts.length := List.idxOf_lt_length_of_mem h
      refine .known ?_ rfl
      show table.texts[table.texts.idxOf text]? = some text
      rw [List.getElem?_eq_getElem hlt, List.getElem_idxOf hlt]
  · next h =>
      refine .fresh (fun other hother => h (List.mem_of_getElem? hother))
        (List.getElem?_eq_none (Nat.le_refl _)) ?_ fun other hother => ?_
      · simp [text?]
      · have hindex : other.index ≠ table.texts.length :=
          fun heq => hother (congrArg Symbol.mk heq)
        show (table.texts ++ [text])[other.index]? = table.texts[other.index]?
        rcases Nat.lt_or_gt_of_ne hindex with hlt | hgt
        · exact List.getElem?_append_left hlt
        · have hlength : (table.texts ++ [text]).length ≤ other.index := by
            rw [List.length_append]
            exact hgt
          rw [List.getElem?_eq_none hlength, List.getElem?_eq_none (Nat.le_of_lt hgt)]

/-- Symbols number the texts. -/
def interner : Interner SymbolTable Symbol where
  empty := .empty
  text? := text?
  get? := get?
  intern := intern
  internStatic := intern
  text?_empty _ := List.getElem?_nil
  text?_of_get? := by
    intro table text key h
    obtain ⟨index, hindex, rfl⟩ := Option.map_eq_some_iff.1 h
    obtain ⟨hlt, htext, -⟩ := List.idxOf?_eq_some_iff.1 hindex
    exact List.getElem?_eq_some_iff.2 ⟨hlt, htext⟩
  text?_ne_of_get? := by
    intro table text h key hkey
    exact List.idxOf?_eq_none_iff.1 (Option.map_eq_none_iff.1 h) (List.mem_of_getElem? hkey)
  intern_entry := intern_entry
  internStatic_entry := intern_entry

end SymbolTable

namespace Interner

/-- Something to ask of an interner. -/
inductive Call where
  | intern (text : String)
  | internStatic (text : String)
  | get (text : String)
deriving DecidableEq

namespace Call

/-- The text that a call is about. -/
def text : Call → String
  | .intern text | .internStatic text | .get text => text

/-- The text that a call enters. -/
def entered? : Call → Option String
  | .intern text | .internStatic text => some text
  | .get _ => none

end Call

variable {Table Key : Type} (interner : Interner Table Key)

/-- Answers a call, and gives the table behind it. -/
def step (table : Table) : Call → Table × Option Key
  | .intern text =>
    let (key, entered) := interner.intern table text
    (entered, some key)
  | .internStatic text =>
    let (key, entered) := interner.internStatic table text
    (entered, some key)
  | .get text => (table, interner.get? table text)

/-- Answers calls in order, and gives the table behind them. -/
def run (table : Table) : List Call → Table × List (Option Key)
  | [] => (table, [])
  | call :: rest =>
    let (next, answer) := interner.step table call
    let (last, answers) := run next rest
    (last, answer :: answers)

/-- The table that calls lead to. -/
def after (table : Table) (calls : List Call) : Table :=
  (interner.run table calls).1

/-- The calls of a program from its start, each with its answer. -/
def answered (calls : List Call) : List (Call × Option Key) :=
  calls.zip (interner.run interner.empty calls).2

end Interner

end ArrayShape
