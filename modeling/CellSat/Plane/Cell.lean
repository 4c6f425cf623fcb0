import CellSat.Symmetry.Basis
import CellSat.Word
/-!
# Cells of the plane

Rows grow to the south and columns to the east.

* `Cell`: a place in the plane;
* `Cell.displacement?`: the step that a compass symbol names;
* `Cell.shift`, `Cell.shift64`: a step, exact and in machine words.
-/

namespace CellSat

/-- A place in the plane. -/
structure Cell where
  row : Int
  column : Int
  deriving DecidableEq, Hashable, Repr

namespace Cell

/-- The step that a compass symbol names. -/
def displacement? : String → Option Cell
  | "N" => some ⟨-1, 0⟩
  | "NE" => some ⟨-1, 1⟩
  | "E" => some ⟨0, 1⟩
  | "SE" => some ⟨1, 1⟩
  | "S" => some ⟨1, 0⟩
  | "SW" => some ⟨1, -1⟩
  | "W" => some ⟨0, -1⟩
  | "NW" => some ⟨-1, -1⟩
  | _ => none

/-- The place that is one step away. -/
def shift (p d : Cell) : Cell := ⟨p.row + d.row, p.column + d.column⟩

/-- The place that is a step back. -/
def shiftBack (p d : Cell) : Cell := ⟨p.row - d.row, p.column - d.column⟩

/-- The place with rows and columns exchanged. -/
def transpose (p : Cell) : Cell := ⟨p.column, p.row⟩

/-- The place that is one step away, if its coordinates fit. -/
def shift64 (p d : Cell) : Checked Cell :=
  Word.within [p.row + d.row, p.column + d.column] (p.shift d)

/-- The place that is a step back, if its coordinates fit. -/
def shiftBack64 (p d : Cell) : Checked Cell :=
  Word.within [p.row - d.row, p.column - d.column] (p.shiftBack d)

end Cell

end CellSat
