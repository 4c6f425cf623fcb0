import CellSat.Data.Json
import CellSat.Host
import CellSat.Pattern.Render
import CellSat.Text.Seconds
/-!
# Solutions

A solution holds the values of all variables with the picture of the cells.

* `Solution`, `Solution.ofValues`;
* `Solution.value?`, `Solution.livingCount`, `Solution.format`;
* `Solution.toJson`, `Solution.ofJson?`, `Solution.save`, `Solution.load`.
-/

namespace CellSat

/-- A decoded model. -/
structure Solution where
  /-- The place among the models of a run, from 1 on. -/
  index : Nat
  values : Valuation
  grid : ValueGrid
  /-- How long it took, in nanoseconds. -/
  solveTime : Nat := 0
  /-- The text of the folding. -/
  folding : String
  /-- The number of living cells of each generation. -/
  livingCells : List Nat
  variableCount : Nat
  clauseCount : Nat
  deriving DecidableEq, Repr

namespace Solution

/-- The solution with the given values. -/
def ofValues (index : Nat) (values : Valuation) (folding : String)
    (variableCount clauseCount solveTime : Nat) : Checked Solution := do
  let grid ← ValueGrid.ofValuation "c" values
  let livingCells ← (List.range grid.generations).mapM grid.livingCount
  return { index, values, grid, solveTime, folding, livingCells, variableCount, clauseCount }

/-- Halve the part of an ordered list that may hold a name until one place is left. -/
def bisect (values : Array (String × Value)) (name : String) : Nat → Nat → Nat → Nat
  | 0, base, _ => base
  | fuel + 1, base, size =>
    if 1 < size then
      let half := size / 2
      let middle := base + half
      let above := match values[middle]? with
        | some e => decide (name < e.1)
        | none => true
      bisect values name fuel (if above then base else middle) (size - half)
    else base

/-- The value of a variable. -/
def value? (s : Solution) (name : String) : Option Value :=
  let values := s.values.toArray
  match values[bisect values name values.size 0 values.size]? with
  | some e => if e.1 = name then some e.2 else none
  | none => none

/-- The number of living cells of a generation. -/
def livingCount (s : Solution) (generation : Nat) : Nat := s.livingCells.getD generation 0

/-- The values as text. -/
def render (s : Solution) (format : OutputFormat) : Checked String := format.render s.values

/-- A heading and the values as text. -/
def format (s : Solution) (format : OutputFormat) : Checked String := do
  let counts := Text.join ", " (s.livingCells.map toString)
  return "Solution " ++ toString s.index ++ " on " ++ s.folding ++
    " (live cells per generation: " ++ counts ++ "), found in " ++
    Text.renderSeconds s.solveTime ++ "s\n" ++ (← s.render format)

end Solution

/-! ## Data -/

/-- A value as data. -/
def Value.toData : Value → Data
  | truth b => .bool b
  | number n => .int n

/-- Read a value. -/
def Value.ofData? : Data → Option Value
  | .bool b => some (.truth b)
  | .int i => ((Data.int i).toNat64?).map .number
  | _ => none

/-- Values by name as data. -/
def Valuation.toData (values : Valuation) : Data :=
  .list (values.map fun e => .list [.text e.1, e.2.toData])

/-- Read a name with its value. -/
def Valuation.pairOfData? : Data → Option (String × Value)
  | .list [name, value] => do return (← name.toText?, ← Value.ofData? value)
  | _ => none

/-- Read values by name. -/
def Valuation.ofData? (d : Data) : Option Valuation := d.toListOf? pairOfData?

namespace ValueGrid

/-- A cell as data. -/
def cellToData : Option Value → Data
  | none => .null
  | some v => v.toData

/-- A grid as data. -/
def toData (g : ValueGrid) : Data :=
  .record [("generations", .int g.generations), ("height", .int g.height), ("width", .int g.width),
    ("cells", .list (g.cells.toList.map cellToData))]

/-- Read a cell. -/
def cellOfData? (d : Data) : Option (Option Value) :=
  if d.isNull then some none else (Value.ofData? d).map some

/-- Read a grid. -/
def ofData? (d : Data) : Option ValueGrid :=
  match d.record? ["generations", "height", "width", "cells"] with
  | some [generations, height, width, cells] => do
    return {
      generations := ← Field.required Data.toNat64? generations
      height := ← Field.required Data.toNat64? height
      width := ← Field.required Data.toNat64? width
      cells := (← Field.required (Data.toListOf? cellOfData?) cells).toArray }
  | _ => none

end ValueGrid

namespace Solution

/-- A solution as data. How long it took is left out. -/
def toData (s : Solution) : Data :=
  .record [("index", .int s.index), ("values", Valuation.toData s.values), ("grid", s.grid.toData),
    ("metadata", .record [("equivalence", .text s.folding),
      ("living_cells", .list (s.livingCells.map fun (n : Nat) => .int n)),
      ("variable_count", .int s.variableCount), ("clause_count", .int s.clauseCount)])]

/-- Read what a solution says about its origin. -/
def metadataOfData? (d : Data) : Option (String × List Nat × Nat × Nat) :=
  match d.record? ["equivalence", "living_cells", "variable_count", "clause_count"] with
  | some [folding, livingCells, variableCount, clauseCount] => do
    return (← Field.required Data.toText? folding,
      ← Field.required (Data.toListOf? Data.toNat64?) livingCells,
      ← Field.required Data.toNat64? variableCount, ← Field.required Data.toNat64? clauseCount)
  | _ => none

/-- Read a solution. -/
def ofData? (d : Data) : Option Solution :=
  match d.record? ["index", "values", "grid", "metadata"] with
  | some [index, values, grid, metadata] => do
    let index ← Field.required Data.toNat64? index
    let values ← Field.required Valuation.ofData? values
    let grid ← Field.required ValueGrid.ofData? grid
    let (folding, livingCells, variableCount, clauseCount) ←
      Field.required metadataOfData? metadata
    return { index, values, grid, folding, livingCells, variableCount, clauseCount }
  | _ => none

/-- A solution as text. -/
def toJson (s : Solution) : String := s.toData.toPrettyJson

/-- Read a solution from text. -/
def ofJson? (text : String) : Option Solution := (Data.parseJson? text).bind ofData?

variable {m : Type → Type} [Monad m] [Host m]

/-- Write a solution to a file. -/
def save (s : Solution) (path : Path) : Run m Unit := Run.writeFile path s.toJson

/-- Read a solution from a file. -/
def load (path : Path) : Run m Solution := do
  match ofJson? (← Run.readText path) with
  | some s => return s
  | none => throw (.ofIssue .unreadable)

end Solution

end CellSat
