import CellSat.Cnf.Assignment
import CellSat.Plane.Folding
/-!
# Value grids

The values of the cell variables of a solution, arranged by generation, row and column.

* `ValueGrid.coordinates?`: the place that a variable's name gives;
* `ValueGrid.ofValuation`: the grid of a valuation;
* `ValueGrid.get`, `ValueGrid.layer`, `ValueGrid.livingCount`: what it shows;
* `ValueGrid.unfold`: a patch of the plane seen through a folding;
* `ValueGrid.render`: generation 0 as a picture.
-/

namespace CellSat

/-- Values by generation, row and column. Unknown cells have none. -/
structure ValueGrid where
  generations : Nat
  height : Nat
  width : Nat
  cells : Array (Option Value)
  deriving DecidableEq, Repr

/-- A variable at a place. -/
structure PlacedValue where
  row : Nat
  column : Nat
  generation : Nat
  value : Value
  deriving DecidableEq, Repr

namespace ValueGrid

/-- The largest number of cells that can be stored. -/
def capacity : Nat := 576460752303423487

/-- The place of a cell in the list of all cells. -/
def index64 (g : ValueGrid) (generation row column : Nat) : Checked Nat := do
  let skipped ← Word.nat64 (generation * g.height)
  let rows ← Word.nat64 (skipped + row)
  let cells ← Word.nat64 (rows * g.width)
  Word.nat64 (cells + column)

/-- A grid without values. -/
def empty64 (generations height width : Nat) : Checked ValueGrid := do
  let rows ← Word.nat64 (generations * height)
  let size ← Word.nat64 (rows * width)
  if capacity < size then throw .overflow
  else return ⟨generations, height, width, Array.replicate size none⟩

/-- The value of a cell, if it is known. -/
def get (g : ValueGrid) (generation row column : Nat) : Checked (Option Value) :=
  if generation < g.generations ∧ row < g.height ∧ column < g.width then do
    let i ← g.index64 generation row column
    match g.cells[i]? with
    | some v => return v
    | none => throw .outOfBounds
  else .ok none

/-- The rows of a generation. -/
def layer (g : ValueGrid) (generation : Nat) : Checked (List (List (Option Value))) :=
  (List.range g.height).mapM fun row =>
    (List.range g.width).mapM fun column => g.get generation row column

/-- Whether a cell has a value that is set. -/
def isLiving : Option Value → Bool
  | none => false
  | some v => v.isSet

/-- The number of cells of a generation that are set. -/
def livingCount (g : ValueGrid) (generation : Nat) : Checked Nat := do
  return (← g.layer generation).flatten.countP isLiving

/-! ## Grids of valuations -/

/-- Three numbers between underscores. -/
def coordinates? (s : List Char) : Option (Nat × Nat × Nat) :=
  match (Text.pieces (· == '_') s).map (Text.readNatUpTo? Word.maxNat64) with
  | [some row, some column, some generation] => some (row, column, generation)
  | _ => none

/-- The place and the value of a variable whose name starts with `name` and an underscore. -/
def placed? (name : String) (entry : String × Value) : Option PlacedValue := do
  let rest ← Text.dropStart? (name ++ "_").toList entry.1.toList
  let (row, column, generation) ← coordinates? rest
  return ⟨row, column, generation, entry.2⟩

/-- One more than the largest of some numbers. -/
def extent (ns : List Nat) : Checked Nat := Word.nat64 (ns.foldl Nat.max 0 + 1)

/-- Put values into their places. -/
def place (g : ValueGrid) : List PlacedValue → Checked ValueGrid
  | [] => .ok g
  | p :: ps => do
    let i ← g.index64 p.generation p.row p.column
    if h : i < g.cells.size then
      place { g with cells := g.cells.set i (some p.value) } ps
    else throw .outOfBounds

/-- The grid of the variables of a name. Variables of other shapes are skipped. -/
def ofValuation (name : String) (values : Valuation) : Checked ValueGrid := do
  let cells := values.filterMap (placed? name)
  if cells.isEmpty then return ⟨0, 0, 0, #[]⟩
  else
    let height ← extent (cells.map (·.row))
    let width ← extent (cells.map (·.column))
    let generations ← extent (cells.map (·.generation))
    let grid ← empty64 generations height width
    grid.place cells

/-! ## Pictures -/

/-- The value that a cell of the plane shows. -/
def valueAt (g : ValueGrid) (folding : Folding) (generation : Nat) (p : Cell) :
    Checked (Option Value) := do
  let q := (← folding.fold64 p).cell
  if q.row < 0 ∨ q.column < 0 then return none
  else g.get generation q.row.toNat q.column.toNat

/-- A patch of the plane, seen through a folding. -/
def unfold (g : ValueGrid) (folding : Folding) (generation : Nat) (rows columns : Int) :
    Checked (List (List (Option Value))) :=
  (List.range rows.toNat).mapM fun (i : Nat) =>
    (List.range columns.toNat).mapM fun (j : Nat) => g.valueAt folding generation ⟨i, j⟩

/-- Generation 0 as a picture, one line per row. -/
def render (g : ValueGrid) : Checked String := do
  let rows ← g.layer 0
  return String.join (rows.map fun row =>
    String.ofList (row.map fun v => if isLiving v then '*' else '.') ++ "\n")

end ValueGrid

end CellSat
