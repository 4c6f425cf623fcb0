import CellSat.Data
import CellSat.Plane.Folding
/-!
# Foldings as data

A folding is a record with a kind and sizes. The kind of a tessellation inside of a folding may be
given by its position among all kinds.

* `Tessellation.ofData?`, `Tessellation.toData`;
* `Folding.ofData?`, `Folding.toData`.
-/

namespace CellSat

/-- Read the one size of a record. -/
def sizeOfData? (d : Data) : Option Int :=
  match d.record? ["size"] with
  | some [size] => Field.required Data.toInt64? size
  | _ => none

/-- Read the two sizes of a record. -/
def sizesOfData? (d : Data) : Option (Int × Int) :=
  match d.record? ["rows", "columns"] with
  | some [rows, columns] => do
    return (← Field.required Data.toInt64? rows, ← Field.required Data.toInt64? columns)
  | _ => none

namespace Tessellation

/-- The names of all kinds. -/
def kinds : List String :=
  ["rotated_square", "face_rotated_square", "rotated_rhombus", "face_rotated_rhombus",
    "flipped_rectangle", "center_flipped_rectangle", "cross_surface"]

/-- Read a tessellation, whose kind may be numbered. -/
def ofDataIn? (numbered : Bool) (d : Data) : Option Tessellation := do
  let (kind, d) ← d.variant? numbered kinds
  match kind with
  | "rotated_square" => (sizeOfData? d).map rotatedSquare
  | "face_rotated_square" => (sizeOfData? d).map faceRotatedSquare
  | "rotated_rhombus" => (sizeOfData? d).map rotatedRhombus
  | "face_rotated_rhombus" => (sizeOfData? d).map faceRotatedRhombus
  | "flipped_rectangle" => (sizesOfData? d).map fun s => flippedRectangle s.1 s.2
  | "center_flipped_rectangle" => (sizesOfData? d).map fun s => centerFlippedRectangle s.1 s.2
  | "cross_surface" => (sizesOfData? d).map fun s => crossSurface s.1 s.2
  | _ => none

/-- Read a tessellation. -/
def ofData? (d : Data) : Option Tessellation := ofDataIn? false d

/-- A record with a kind and one size. -/
def sizeForm (kind : String) (size : Int) : Data :=
  .record [("kind", .text kind), ("size", .int size)]

/-- A record with a kind and two sizes. -/
def sizesForm (kind : String) (rows columns : Int) : Data :=
  .record [("kind", .text kind), ("rows", .int rows), ("columns", .int columns)]

/-- A tessellation as data. -/
def toData : Tessellation → Data
  | rotatedSquare n => sizeForm "rotated_square" n
  | faceRotatedSquare n => sizeForm "face_rotated_square" n
  | rotatedRhombus n => sizeForm "rotated_rhombus" n
  | faceRotatedRhombus n => sizeForm "face_rotated_rhombus" n
  | flippedRectangle m n => sizesForm "flipped_rectangle" m n
  | centerFlippedRectangle m n => sizesForm "center_flipped_rectangle" m n
  | crossSurface m n => sizesForm "cross_surface" m n

end Tessellation

namespace Folding

/-- Read the sizes and the shift of a torus. -/
def torusOfData? (d : Data) : Option Folding :=
  match d.record? ["rows", "columns", "column_shift"] with
  | some [rows, columns, shift] => do
    return torus (← Field.required Data.toInt64? rows) (← Field.required Data.toInt64? columns)
      (← Field.withDefault 0 Data.toInt64? shift)
  | _ => none

/-- The names of all kinds. -/
def kinds : List String := ["toroidal", "open", "strip", "tessellated"]

/-- Read a folding. -/
def ofData? (d : Data) : Option Folding := do
  let (kind, d) ← d.variant? false kinds
  match kind with
  | "toroidal" => torusOfData? d
  | "open" => (sizesOfData? d).map fun s => bounded s.1 s.2
  | "strip" => (sizesOfData? d).map fun s => strip s.1 s.2
  | "tessellated" =>
    match d.record? ["tessellation"] with
    | some [t] => (Field.required (Tessellation.ofDataIn? true) t).map tessellated
    | _ => none
  | _ => none

/-- A folding as data. -/
def toData : Folding → Data
  | torus rows columns shift =>
    .record [("kind", .text "toroidal"), ("rows", .int rows), ("columns", .int columns),
      ("column_shift", .int shift)]
  | bounded rows columns => Tessellation.sizesForm "open" rows columns
  | strip rows columns => Tessellation.sizesForm "strip" rows columns
  | tessellated t => .record [("kind", .text "tessellated"), ("tessellation", t.toData)]

end Folding

end CellSat
