import CellSat.Plane.Cell
/-!
# Tessellations

The plane is tiled by boxes, each of them an image of the box at the origin under one of a few
transformations, numbered by labels. Label 0 is the identity. A cell is folded onto the box at the
origin by the first transformation that carries it into a box that is a shifted copy of
the first one.

* `Tessellation`, its sizes and its name;
* `Tessellation.image`, `Tessellation.boxOf`, `Tessellation.isTurned`, `Tessellation.fold`: exact;
* `Tessellation.image64`, `Tessellation.boxOf64`, `Tessellation.isTurned64`, `Tessellation.fold64`:
  in machine words, which give the same where they give a result.
-/

namespace CellSat

/-- A tiling of the plane by rotated or reflected copies of a box. -/
inductive Tessellation where
  /-- Squares turned by quarters about their corners. -/
  | rotatedSquare (size : Int)
  /-- Squares turned by quarters about cells. -/
  | faceRotatedSquare (size : Int)
  /-- Rhombi turned by thirds about their corners. -/
  | rotatedRhombus (size : Int)
  /-- Rhombi turned by thirds about cells. -/
  | faceRotatedRhombus (size : Int)
  /-- Rectangles reflected in lines between cells. -/
  | flippedRectangle (rows columns : Int)
  /-- Rectangles reflected in lines through cells. -/
  | centerFlippedRectangle (rows columns : Int)
  /-- Rectangles whose opposite sides are glued in reverse. -/
  | crossSurface (rows columns : Int)
  deriving DecidableEq, Repr

/-- A cell of the box at the origin, and the label of the transformation that led there. -/
structure Folded where
  cell : Cell
  label : Nat
  deriving DecidableEq, Repr

namespace Tessellation

/-- The number of rows of a box. -/
def rows : Tessellation → Int
  | rotatedSquare n | faceRotatedSquare n | rotatedRhombus n | faceRotatedRhombus n => n
  | flippedRectangle n _ | centerFlippedRectangle n _ | crossSurface n _ => n

/-- The number of columns of a box. -/
def columns : Tessellation → Int
  | rotatedSquare n | faceRotatedSquare n | rotatedRhombus n | faceRotatedRhombus n => n
  | flippedRectangle _ n | centerFlippedRectangle _ n | crossSurface _ n => n

/-- The number of labels. -/
def labelCount : Tessellation → Nat
  | rotatedRhombus _ | faceRotatedRhombus _ => 3
  | _ => 4

/-- The name of the kind of tessellation. -/
def kindName : Tessellation → String
  | rotatedSquare _ => "RotatedSquare"
  | faceRotatedSquare _ => "FaceRotatedSquare"
  | rotatedRhombus _ => "RotatedRhombus"
  | faceRotatedRhombus _ => "FaceRotatedRhombus"
  | flippedRectangle _ _ => "FlippedRectangle"
  | centerFlippedRectangle _ _ => "CenterFlippedRectangle"
  | crossSurface _ _ => "CrossSurface"

/-! ## The exact fold -/

/-- The image of a cell under the transformation of a label. -/
def image (t : Tessellation) (label : Nat) (p : Cell) : Cell :=
  if label = 0 then p else
    let i := p.row
    let j := p.column
    match t with
    | rotatedSquare _ | faceRotatedSquare _ =>
      if label = 1 then ⟨-j - 1, i⟩ else if label = 2 then ⟨-i - 1, -j - 1⟩ else ⟨j, -i - 1⟩
    | rotatedRhombus _ | faceRotatedRhombus _ =>
      if label = 1 then ⟨-j - 1, i - j⟩ else ⟨j - i - 1, -i - 1⟩
    | flippedRectangle _ _ | centerFlippedRectangle _ _ =>
      if label = 1 then ⟨-1 - i, j⟩ else if label = 2 then ⟨i, -1 - j⟩ else ⟨-1 - i, -1 - j⟩
    | crossSurface rows columns =>
      if label = 1 then ⟨i - rows, columns - 1 - j⟩
      else if label = 2 then ⟨-1 - i, -1 - j⟩ else ⟨rows - 1 - i, j - columns⟩

/-- The box that holds a cell, by its row and column among the boxes. -/
def boxOf (t : Tessellation) (p : Cell) : Cell := ⟨p.row / t.rows, p.column / t.columns⟩

/-- Whether a box is more than a shifted copy of the box at the origin. -/
def isTurned (t : Tessellation) (box : Cell) : Bool :=
  match t with
  | rotatedRhombus _ | faceRotatedRhombus _ => (box.row + box.column) % 3 != 0
  | _ => box.row % 2 != 0 || box.column % 2 != 0

/-- Shift a cell into the box at the origin. -/
def reduce (t : Tessellation) (p : Cell) : Cell := ⟨p.row % t.rows, p.column % t.columns⟩

/-- The cell that is identified with the corner of the box by the transformation of a label. -/
def corner (t : Tessellation) (label : Nat) : Cell := t.image label ⟨0, 0⟩

/-- Account for transformations that fix a cell instead of a corner: the reduced cell moves by the
image of the corner, and border cells that are one cell get one representative. The orientation
of such a fold is not consistent, so its label is 0. -/
def recenter (t : Tessellation) (p : Cell) (label : Nat) : Folded :=
  match t with
  | faceRotatedSquare _ | faceRotatedRhombus _ =>
    let q := p.shiftBack (t.corner label)
    ⟨if q.row = t.rows ∨ q.column = 0 then q.transpose else q, 0⟩
  | centerFlippedRectangle _ _ => ⟨p.shiftBack (t.corner label), 0⟩
  | _ => ⟨p, label⟩

/-- Fold a cell by the first of the given labels that leads into a shifted copy of the box. -/
def foldBy (t : Tessellation) (p : Cell) : List Nat → Folded
  | [] => ⟨t.reduce p, 0⟩
  | label :: labels =>
    let q := t.image label p
    if t.isTurned (t.boxOf q) then foldBy t p labels else t.recenter (t.reduce q) label

/-- The representative of a cell in the box at the origin. -/
def fold (t : Tessellation) (p : Cell) : Folded := t.foldBy p (List.range t.labelCount)

/-! ## The fold in machine words -/

/-- The values that are computed on the way to the image of a cell. -/
def imageSteps (t : Tessellation) (label : Nat) (p : Cell) : List Int :=
  if label = 0 then [] else
    let i := p.row
    let j := p.column
    match t with
    | rotatedSquare _ | faceRotatedSquare _ =>
      if label = 1 then [-j, -j - 1] else if label = 2 then [-i, -i - 1, -j, -j - 1]
      else [-i, -i - 1]
    | rotatedRhombus _ | faceRotatedRhombus _ =>
      if label = 1 then [-j, -j - 1, i - j] else [j - i, j - i - 1, -i, -i - 1]
    | flippedRectangle _ _ | centerFlippedRectangle _ _ =>
      if label = 1 then [-1 - i] else if label = 2 then [-1 - j] else [-1 - i, -1 - j]
    | crossSurface rows columns =>
      if label = 1 then [i - rows, columns - 1, columns - 1 - j]
      else if label = 2 then [-1 - i, -1 - j] else [rows - 1, rows - 1 - i, j - columns]

/-- The image of a cell, if all values on the way fit. -/
def image64 (t : Tessellation) (label : Nat) (p : Cell) : Checked Cell :=
  Word.within (t.imageSteps label p) (t.image label p)

/-- The box that holds a cell, unless a side of the boxes is zero. -/
def boxOf64 (t : Tessellation) (p : Cell) : Checked Cell := do
  let row ← Word.div p.row t.rows
  let column ← Word.div p.column t.columns
  return ⟨row, column⟩

/-- Whether a box is more than a shifted copy of the box at the origin. -/
def isTurned64 (t : Tessellation) (box : Cell) : Checked Bool :=
  match t with
  | rotatedRhombus _ | faceRotatedRhombus _ =>
    Word.within [box.row + box.column] (t.isTurned box)
  | _ => .ok (t.isTurned box)

/-- Shift a cell into the box at the origin. -/
def reduce64 (t : Tessellation) (p : Cell) : Checked Cell := do
  let row ← Word.mod p.row t.rows
  let column ← Word.mod p.column t.columns
  return ⟨row, column⟩

/-- Account for transformations that fix a cell instead of a corner. -/
def recenter64 (t : Tessellation) (p : Cell) (label : Nat) : Checked Folded :=
  match t with
  | faceRotatedSquare _ | faceRotatedRhombus _ | centerFlippedRectangle _ _ => do
    let corner ← t.image64 label ⟨0, 0⟩
    let _ ← p.shiftBack64 corner
    return t.recenter p label
  | _ => .ok (t.recenter p label)

/-- Fold a cell by the first of the given labels that leads into a shifted copy of the box. -/
def foldBy64 (t : Tessellation) (p : Cell) : List Nat → Checked Folded
  | [] => do return ⟨← t.reduce64 p, 0⟩
  | label :: labels => do
    let q ← t.image64 label p
    if ← t.isTurned64 (← t.boxOf64 q) then foldBy64 t p labels
    else t.recenter64 (← t.reduce64 q) label

/-- The representative of a cell in the box at the origin. -/
def fold64 (t : Tessellation) (p : Cell) : Checked Folded :=
  t.foldBy64 p (List.range t.labelCount)

end Tessellation

end CellSat
