import ArrayShape.Operand.Field
import ArrayShape.Proofs.Alternatives
import ArrayShape.Proofs.Canonical
import ArrayShape.Proofs.EqualShapes
import ArrayShape.Proofs.ErrorPlaces
import ArrayShape.Proofs.FieldLookup
import ArrayShape.Proofs.FinalErrors
import ArrayShape.Proofs.FirstFault
import ArrayShape.Proofs.FreeNames
import ArrayShape.Proofs.HiddenHistory
import ArrayShape.Proofs.Image
import ArrayShape.Proofs.ItemSize
import ArrayShape.Proofs.ListReader
import ArrayShape.Proofs.NormalForm
import ArrayShape.Proofs.RepeatedLabels
import ArrayShape.Proofs.SessionStatus
import ArrayShape.Proofs.Spacing
import ArrayShape.Proofs.Spans
import ArrayShape.Shape.Catalogue
import ArrayShape.SymbolTable
