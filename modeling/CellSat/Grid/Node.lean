import CellSat.Literal
import CellSat.Plane.Folding
import CellSat.Text.Blank
/-!
# Nodes of a folded space-time

A node is a cell at a generation. Space is folded, and time is periodic: after a period the pattern
reappears, shifted.

* `Clock`: the period and the shift; `Clock.adjust` closes the circle of generations;
* `Lattice`: a folding with a clock; `Lattice.node64` is the node of any place;
* `Node`, its neighbours (`Lattice.neighbor?`, `Lattice.follow?`), its name and its place.
-/

namespace CellSat

/-- After `period` generations the pattern reappears, shifted. -/
structure Clock where
  period : Int := 1
  rowShift : Int := 0
  columnShift : Int := 0
  deriving DecidableEq, Repr

/-- The text of a clock. -/
def Clock.render (c : Clock) : String := "p" ++ toString c.period

/-- A cell at a generation, with the label of the fold that produced it. -/
structure Node where
  cell : Cell
  generation : Int := 0
  orientation : Nat := 0
  deriving DecidableEq, Hashable, Repr

namespace Node

/-- The node at the origin of space and time. -/
def origin : Node := { cell := ⟨0, 0⟩ }

/-- Row, column and generation. -/
def position (n : Node) : Int × Int × Int := (n.cell.row, n.cell.column, n.generation)

/-- Nodes are ordered by row, column and generation. -/
protected def compare (m n : Node) : Ordering :=
  (compare m.cell.row n.cell.row).then <| (compare m.cell.column n.cell.column).then <|
    compare m.generation n.generation

/-- Whether two nodes are at the same place. -/
def samePlace (m n : Node) : Bool := m.cell == n.cell && m.generation == n.generation

/-- The name of the variable of a node. -/
def name (n : Node) : String :=
  "c_" ++ toString n.cell.row ++ "_" ++ toString n.cell.column ++ "_" ++ toString n.generation

/-- The literal that says that the node is alive. -/
def toLiteral (n : Node) : Literal := { name := n.name }

end Node

/-- A folding of space with a clock. -/
structure Lattice where
  folding : Folding
  clock : Clock := {}
  deriving DecidableEq, Repr

/-- The place after a step in time: at the end of a period time starts again, and space is
shifted. -/
def Clock.adjust (c : Clock) (p : Cell) (t : Int) : Cell × Int :=
  if t = c.period then (p.shift ⟨c.rowShift, c.columnShift⟩, 0) else (p, t)

/-- The place after a step in time, if its coordinates fit. -/
def Clock.adjust64 (c : Clock) (p : Cell) (t : Int) : Checked (Cell × Int) :=
  if t = c.period then do return (← p.shift64 ⟨c.rowShift, c.columnShift⟩, 0)
  else .ok (p, t)

namespace Lattice

variable (lattice : Lattice)

/-- The node of a cell at a generation. -/
def node (p : Cell) (t : Int) : Node :=
  let folded := lattice.folding.fold p
  ⟨folded.cell, t, folded.label⟩

/-- The node of a cell at a generation, if all values on the way fit. -/
def node64 (p : Cell) (t : Int) : Checked Node := do
  let folded ← lattice.folding.fold64 p
  return ⟨folded.cell, t, folded.label⟩

/-- The neighbour that a symbol names, exact. -/
def neighbor? (symbol : String) (n : Node) : Option Node :=
  if symbol = Symbol.next then
    let (p, t) := lattice.clock.adjust n.cell (n.generation + 1)
    some (lattice.node p t)
  else (Cell.displacement? symbol).map fun d => lattice.node (n.cell.shift d) n.generation

/-- The neighbour that a symbol names, if all values on the way fit. -/
def neighbor64? (symbol : String) (n : Node) : Checked (Option Node) :=
  if symbol = Symbol.next then do
    let (p, t) ← lattice.clock.adjust64 n.cell (← Word.add n.generation 1)
    return some (← lattice.node64 p t)
  else
    match Cell.displacement? symbol with
    | none => .ok none
    | some d => do return some (← lattice.node64 (← n.cell.shift64 d) n.generation)

/-- The neighbours that symbols name. -/
def neighborsBy64 (n : Node) : List String → Checked (List Node)
  | [] => .ok []
  | symbol :: symbols => do
    let neighbor ← lattice.neighbor64? symbol n
    let rest ← neighborsBy64 n symbols
    return neighbor.toList ++ rest

/-- The eight neighbours in space and the one in time. -/
def neighbors64 (n : Node) : Checked (List Node) := lattice.neighborsBy64 n Symbol.neighbors

/-- Follow a path of symbols, exact. -/
def follow? (n : Node) : List String → Option Node
  | [] => some n
  | symbol :: path => (lattice.neighbor? symbol n).bind fun m => follow? m path

/-- Follow a path of symbols. -/
def follow64? (n : Node) : List String → Checked (Option Node)
  | [] => .ok (some n)
  | symbol :: path => do
    match ← lattice.neighbor64? symbol n with
    | none => return none
    | some m => follow64? m path

/-- Whether a node lies in the dead region. -/
def isOutside (n : Node) : Bool := lattice.folding.isOutside n.cell

/-- Whether a node is outside and has a neighbour inside. -/
def isBoundary64 (n : Node) : Checked Bool :=
  if lattice.isOutside n then do
    return !(← lattice.neighbors64 n).all lattice.isOutside
  else .ok false

/-- The integers from `low` up to, and without, `high`. -/
def interval (low high : Int) : List Int :=
  (List.range (high - low).toNat).map fun (k : Nat) => low + (k : Int)

/-- Drop every node that is followed by one at the same place. -/
def distinctPlaces : List Node → List Node
  | [] => []
  | [n] => [n]
  | m :: n :: l => if m.samePlace n then distinctPlaces (n :: l) else m :: distinctPlaces (n :: l)

/-- The nodes of the cells of a rectangle at a generation, in order of their places. Of several
cells with one node the last one of the rectangle decides the orientation. -/
def rectangle64 (low high : Cell) (t : Int) : Checked (List Node) := do
  let cells := (interval low.row high.row).flatMap fun i =>
    (interval low.column high.column).map fun j => (⟨i, j⟩ : Cell)
  let nodes ← cells.mapM fun p => lattice.node64 p t
  return distinctPlaces (nodes.mergeSort fun m n => (m.compare n).isLE)

/-- The text of a node: its name, its orientation if it is turned, and the folding. -/
def renderNode (n : Node) : String :=
  n.name ++ (if n.orientation = 0 then "" else "(" ++ toString n.orientation ++ ")") ++ ":" ++
    lattice.folding.render

end Lattice

end CellSat
