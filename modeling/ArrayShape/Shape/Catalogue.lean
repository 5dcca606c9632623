import ArrayShape.Shape.Basic
import Std.Data.HashMap

/-!
# First occurrences of shapes

A `Catalogue` records, for each of the shapes entered so far, the position where the shape was
first entered. It finds the position by hashing; `firstPosition?` finds it by comparing with
each earlier shape in turn.
-/

namespace ArrayShape.Shape

variable {Name : Type} [DecidableEq Name] [Hashable Name]

/-- The position at which each shape was first entered. -/
abbrev Catalogue (Name : Type) [DecidableEq Name] [Hashable Name] :=
  Std.HashMap (Shape Name) Nat

/-- Enters a shape at a position. Gives the first position of an equal shape, which is the new
position if there was none. -/
def Catalogue.enter (catalogue : Catalogue Name) (shape : Shape Name) (position : Nat) :
    Nat × Catalogue Name :=
  match catalogue[shape]? with
  | some first => (first, catalogue)
  | none => (position, catalogue.insert shape position)

/-- Enters shapes at their positions in turn, and gives the first position of each. -/
def Catalogue.enterAll (catalogue : Catalogue Name) : List (Nat × Shape Name) → List Nat
  | [] => []
  | (position, shape) :: rest =>
    let (first, entered) := catalogue.enter shape position
    first :: Catalogue.enterAll entered rest

/-- The first position of an equal shape in a list of shapes with positions. -/
def firstPosition? (entries : List (Nat × Shape Name)) (shape : Shape Name) : Option Nat :=
  entries.find? (fun entry => entry.2 == shape) |>.map Prod.fst

end ArrayShape.Shape
