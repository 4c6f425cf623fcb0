import CellSat.Grid.Node
import Std.Data.HashSet
/-!
# The grid of a lattice

All nodes that can be reached from a root by neighbours. A neighbour belongs to the grid if its
orientation is 0 and it lies inside or on the boundary.

* `Lattice.nodeLimit`: how many nodes there can be;
* `Lattice.reachable64`: the search from a root, breadth first;
* `Lattice.grid64`: the nodes in order of their places;
* `Lattice.layer`: the inside nodes of one generation.
-/

namespace CellSat.Lattice

variable (lattice : Lattice)

/-- The number of places that inside and boundary cells can take. -/
def placeLimit : Folding → Nat
  | .torus rows columns _ => rows.natAbs * columns.natAbs
  | .bounded rows columns => (rows.toNat + 2) * (columns.toNat + 2)
  | .strip rows columns => (rows.toNat + 2) * columns.natAbs
  | .tessellated t => (t.rows.natAbs + 1) * (t.columns.natAbs + 1)

/-- The number of generations that follow a generation until time repeats itself. From a generation
that is not before the end of a period time goes on as far as its type does. -/
def generationLimit (clock : Clock) (t : Int) : Nat :=
  if 0 < clock.period ∧ t < clock.period then (clock.period - min t 0).toNat + 1
  else (Word.maxInt64 - min t 0).toNat + 2

/-- A bound on the number of nodes of the grid of a root. -/
def nodeLimit (root : Node) : Nat :=
  placeLimit lattice.folding * generationLimit lattice.clock root.generation + 1

/-- Whether a neighbour belongs to the grid. -/
def belongs64 (n : Node) : Checked Bool :=
  if n.orientation ≠ 0 then .ok false
  else if lattice.isOutside n then lattice.isBoundary64 n
  else .ok true

/-- Add the nodes of a list that are new and belong to the grid to what is seen and to the end of
the queue, which is kept in reverse. -/
def enqueue64 : List Node → Std.HashSet Node → List Node → Checked (Std.HashSet Node × List Node)
  | [], seen, queue => .ok (seen, queue)
  | n :: ns, seen, queue =>
    if seen.contains n then enqueue64 ns seen queue
    else do
      if ← lattice.belongs64 n then enqueue64 ns (seen.insert n) (n :: queue)
      else enqueue64 ns seen queue

/-- Visit the nodes of a frontier and then those that were found meanwhile. Each node is visited
once, so a bound on the number of nodes bounds the number of steps. -/
def reachable64 : Nat → List Node → List Node → Std.HashSet Node → Checked (Std.HashSet Node)
  | 0, _, _, seen => .ok seen
  | _ + 1, [], [], seen => .ok seen
  | fuel + 1, [], n :: later, seen =>
    match (n :: later).reverse with
    | [] => .ok seen
    | m :: frontier => do
      let (seen, later) ← lattice.enqueue64 (← lattice.neighbors64 m) seen []
      reachable64 fuel frontier later seen
  | fuel + 1, m :: frontier, later, seen => do
    let (seen, later) ← lattice.enqueue64 (← lattice.neighbors64 m) seen later
    reachable64 fuel frontier later seen

/-- The grid of a root: the nodes that can be reached, in order of their places. -/
def grid64 (root : Node) : Checked (List Node) := do
  let seen ← lattice.reachable64 (lattice.nodeLimit root) [root] []
    (Std.HashSet.emptyWithCapacity.insert root)
  return seen.toList.mergeSort fun m n => (m.compare n).isLE

/-- The inside nodes of a generation. -/
def layer (grid : List Node) (t : Int) : List Node :=
  grid.filter fun n => n.generation == t && !lattice.isOutside n

end CellSat.Lattice
