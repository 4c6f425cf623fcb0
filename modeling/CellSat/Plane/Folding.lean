import CellSat.Plane.Tessellation
/-!
# Foldings of the plane

A folding says which cells of the unbounded plane are one cell of a finite grid, and which cells
lie outside of the grid and are dead.

* `Folding`, its sizes and its text;
* `Folding.fold`: the representative of a cell, exact;
* `Folding.fold64`: the same in machine words;
* `Folding.isOutside`.
-/

namespace CellSat

/-- How cells of the plane are identified with each other. -/
inductive Folding where
  /-- Rows and columns wrap around; a turn through the rows shifts the columns. -/
  | torus (rows columns columnShift : Int)
  /-- A bounded grid in a dead plane. -/
  | bounded (rows columns : Int)
  /-- Columns wrap around, rows are bounded. -/
  | strip (rows columns : Int)
  /-- The box of a tessellation. -/
  | tessellated (tessellation : Tessellation)
  deriving DecidableEq, Repr

namespace Folding

/-- The number of rows. -/
def rows : Folding → Int
  | torus n _ _ | bounded n _ | strip n _ => n
  | tessellated t => t.rows

/-- The number of columns. -/
def columns : Folding → Int
  | torus _ n _ | bounded _ n | strip _ n => n
  | tessellated t => t.columns

/-- The representative of a cell, with the label of the transformation that led there. -/
def fold (f : Folding) (p : Cell) : Folded :=
  match f with
  | torus rows columns shift =>
    ⟨⟨p.row % rows, (p.column + shift * (p.row / rows)) % columns⟩, 0⟩
  | bounded _ _ => ⟨p, 0⟩
  | strip _ columns => ⟨⟨p.row, p.column % columns⟩, 0⟩
  | tessellated t => t.fold p

/-- The representative of a cell, if all values on the way fit. -/
def fold64 (f : Folding) (p : Cell) : Checked Folded :=
  match f with
  | torus rows columns shift => do
    let row ← Word.mod p.row rows
    let turns ← Word.div p.row rows
    let column ← Word.mod (← Word.add p.column (← Word.mul shift turns)) columns
    return ⟨⟨row, column⟩, 0⟩
  | bounded _ _ => .ok ⟨p, 0⟩
  | strip _ columns => do return ⟨⟨p.row, ← Word.mod p.column columns⟩, 0⟩
  | tessellated t => t.fold64 p

/-- Whether a representative lies in the dead region. -/
def isOutside (f : Folding) (p : Cell) : Bool :=
  match f with
  | bounded rows columns => p.row < 0 || rows ≤ p.row || p.column < 0 || columns ≤ p.column
  | strip rows _ => p.row < 0 || rows ≤ p.row
  | torus .. | tessellated _ => false

/-- A number that always shows its sign. -/
def signed (x : Int) : String := if x < 0 then toString x else "+" ++ toString x

/-- The size and kind of a folding as text. -/
def render (f : Folding) : String :=
  let size := toString f.rows ++ "X" ++ toString f.columns
  match f with
  | torus _ _ shift => size ++ (if shift = 0 then "" else signed shift) ++ "t"
  | bounded _ _ => size ++ "o"
  | strip _ _ => size ++ "s"
  | tessellated t => size ++ ":" ++ t.kindName

end Folding

end CellSat
