/-!
# Symbols for texts

A `SymbolTable` gives a short name, a `Symbol`, to each text that is entered into it. A text
that is entered again keeps its symbol, so symbols of one table are equal exactly when their
texts are.
-/

namespace ArrayShape

/-- A short name for a text: its position in the table that gave it. -/
structure Symbol where
  index : Nat
deriving DecidableEq, Hashable

/-- The texts that were entered, each once, in the order of their first entry. -/
structure SymbolTable where
  texts : List String
  nodup : texts.Nodup

namespace SymbolTable

/-- The table without texts. -/
def empty : SymbolTable :=
  ⟨[], .nil⟩

/-- The symbol of a text that was entered before. -/
def get? (table : SymbolTable) (text : String) : Option Symbol :=
  (table.texts.idxOf? text).map Symbol.mk

/-- The text of a symbol. -/
def text? (table : SymbolTable) (symbol : Symbol) : Option String :=
  table.texts[symbol.index]?

/-- Enters a text, and gives its symbol. A new text takes the next free symbol. -/
def intern (table : SymbolTable) (text : String) : Symbol × SymbolTable :=
  if h : text ∈ table.texts then (⟨table.texts.idxOf text⟩, table)
  else
    (⟨table.texts.length⟩, ⟨table.texts ++ [text], by
      refine List.nodup_append.2 ⟨table.nodup, by simp, ?_⟩
      intro first hfirst second hsecond heq
      rw [List.mem_singleton] at hsecond
      exact h (hsecond ▸ heq ▸ hfirst)⟩)

end SymbolTable

end ArrayShape
