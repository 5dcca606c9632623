import ArrayShape.Interner.Basic
import ArrayShape.Shape.MapNames
import ArrayShape.Shape.OfTree
import ArrayShape.Shape.Parse
import ArrayShape.Tree.ListReader

/-!
# Reading with keys

A shape is read here with an interner: a name that is an operand and a label are entered where they
are read (`naming`), and from then on they are compared by their keys. `flatten` splices groups.
`parse` reads a text in the table that it finds, and leaves the texts of names and labels in it,
also where it fails.
-/

namespace ArrayShape

/-- Computations that may fail, in a table to which they may add. -/
abbrev Interning (Table ε : Type) := ExceptT ε (StateM Table)

/-- What comes of a computation in a table, and the table behind it. -/
def Interning.result {Table ε α : Type} (reading : Interning Table ε α) (table : Table) :
    Except ε α × Table :=
  StateT.run (ExceptT.run reading) table

/-- Why a text gives no shape, with labels that are keys. -/
inductive Failure (Key : Type) where
  /-- The text is not well formed. -/
  | malformed (error : ParseError)
  /-- The text is well formed and describes no valid shape. -/
  | invalid (error : CheckError Key)
deriving DecidableEq

/-- The error with the texts of its labels. -/
def Failure.spelled? {Key : Type} (text? : Key → Option String) : Failure Key → Option Error
  | .malformed error => return .malformed error
  | .invalid error => return .invalid (← error.mapM text?)

namespace Interner

variable {Table Key : Type} (interner : Interner Table Key)

section Entering

variable {ε : Type}

/-- The key of a text, which is entered. -/
def enter (text : String) : Interning Table ε Key :=
  modifyGet fun table => interner.intern table text

/-- The key of a text that lasts, which is entered. -/
def enterStatic (text : String) : Interning Table ε Key :=
  modifyGet fun table => interner.internStatic table text

end Entering

/-- Names and keywords become keys where they are read. -/
def naming : Naming (Interning Table ParseError) Key where
  name := interner.enter
  reserved keyword := interner.enterStatic keyword.text

/-! ## Operands -/

/-- The composite type with a name of its own. Looking for one enters the labels of them all, which
changes nothing after the first time. -/
def typeNamed? {ε : Type} (text : String) : Interning Table ε (Option (Operand Key)) := do
  let types ← Operand.mapTypesM interner.enterStatic Operand.named
  return types.lookup text

/-- The operand that a bare name denotes: an element type, or else a composite type with that name,
or else a type variable. Names are looked up by their text, which every key that was read has. -/
def resolve {ε : Type} (key : Key) : Interning Table ε (Operand Key) := do
  let table ← get
  match interner.text? table key with
  | none => return .typeVar key
  | some text =>
    match DType.ofName? text with
    | some scalar => return .dtype scalar
    | none => return (← interner.typeNamed? text).getD (.typeVar key)

variable [DecidableEq Key] (options : Options)

mutual
/-- The operands that a term contributes to the list it stands in. -/
def flatten : Term Key → Interning Table (CheckError Key) (List (Operand Key))
  | .name _ key => return [← interner.resolve key]
  | .number _ value => return [.integer value]
  | .record range fields => do
    unless options.allowRepeats do Shape.checkLabels range fields
    return [.record (← flattenFields fields)]
  | .enum _ values => return [.enum (values.map (·.value))]
  | .var range lower upper =>
    if options.validateBounds ∧ upper.value < lower.value then
      throw (.invertedBounds range lower.value upper.value)
    else return [.var lower.value upper.value]
  | .group _ members => flattenAll members

/-- The operands that terms contribute, one term after another. -/
def flattenAll : List (Term Key) → Interning Table (CheckError Key) (List (Operand Key))
  | [] => return []
  | term :: rest => return (← flatten term) ++ (← flattenAll rest)

/-- The fields that fields describe, each with the single operand that its type contributes. -/
def flattenFields : TermFields Key → Interning Table (CheckError Key) (Fields Key)
  | [] => return []
  | (label, type) :: rest => do
    match ← flatten type with
    | [operand] => return (label.value, operand) :: (← flattenFields rest)
    | operands => throw (.notOneOperand type.range operands.length)
end

/-- The shape that a tree describes, with names of types resolved. -/
def elaborate (tree : Tree Key) : Interning Table (CheckError Key) (Shape Key) :=
  return ⟨← interner.flattenAll options tree.terms⟩

/-- Reads the shape that a text describes. -/
def parse (source : String) : Interning Table (Failure Key) (Shape Key) := do
  let tree ← ExceptT.adapt .malformed
    (ListReader.tree interner.naming source.utf8ByteSize (Lexeme.ofText source))
  ExceptT.adapt .invalid (interner.elaborate options tree)

/-- Reads the shape that a text describes, in the table that calls lead to. -/
def readAfter (calls : List Call) (options : Options) (source : String) :
    Except (Failure Key) (Shape Key) × Table :=
  (interner.parse options source).result (interner.after interner.empty calls)

/-- What reading gives, with the texts that keys have in a table. -/
def spelled? (table : Table) :
    Except (Failure Key) (Shape Key) → Option (Except Error (Shape String))
  | .ok shape => return .ok (← shape.mapM (interner.text? table))
  | .error failure => return .error (← failure.spelled? (interner.text? table))

end Interner

end ArrayShape
