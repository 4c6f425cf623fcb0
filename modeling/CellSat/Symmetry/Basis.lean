import CellSat.Symmetry.Permutation
/-!
# Named symmetry bases

The eight neighbours of a cell are named by the compass, the cell itself is `O`, and `G` is the
cell one generation later. A basis lists generators of a group of permutations of these symbols.

* `Symbol.center`, `Symbol.next`, `Symbol.neighbors`;
* `Basis`, `Basis.generators`, `Basis.name`.
-/

namespace CellSat

namespace Symbol

/-- The cell in the centre of a neighbourhood. -/
def center : String := "O"

/-- The same cell one generation later. -/
def next : String := "G"

/-- The neighbours in space, clockwise from the north, and the one in time. -/
def neighbors : List String := ["N", "NE", "E", "SE", "S", "SW", "W", "NW", next]

end Symbol

/-- A named set of generators for the symmetries of a neighbourhood. -/
inductive Basis where
  | identity
  | rotated
  | rotatedHex
  | rotated180Hex
  | rotatedFlipped
  | rotatedFlippedHex
  | semiTotalistic
  | totalistic
  | totalisticHex
  | rotatedTriBelow
  | rotatedTriAbove
  deriving DecidableEq, Repr

namespace Permutation

/-- A quarter turn, clockwise. -/
def quarterTurn : Permutation := ofCycles [["NE", "SE", "SW", "NW"], ["N", "E", "S", "W"]]

/-- A sixth of a turn of the hexagonal neighbourhood, clockwise. -/
def sixthTurn : Permutation := ofCycles [["NW", "N", "E", "SE", "S", "W"]]

/-- Half a turn of the hexagonal neighbourhood. -/
def halfTurn : Permutation := ofCycles [["NW", "SE"], ["N", "S"], ["E", "W"]]

/-- Exchange two corners. -/
def swapCorners : Permutation := ofCycles [["NE", "SE"]]

/-- Exchange two sides. -/
def swapSides : Permutation := ofCycles [["N", "E"]]

/-- Exchange a corner and a side. -/
def swapCornerSide : Permutation := ofCycles [["NW", "N"]]

/-- Reflect in the diagonal from south-west to north-east. -/
def flipDiagonal : Permutation := ofCycles [["N", "E"], ["NW", "SE"], ["W", "S"]]

/-- Turn the triangle of the centre with its western and southern neighbours. -/
def turnBelow : Permutation := ofCycles [[Symbol.center, "W", "S"]]

/-- Turn the triangle of the centre with its eastern and northern neighbours. -/
def turnAbove : Permutation := ofCycles [[Symbol.center, "E", "N"]]

end Permutation

namespace Basis

open Permutation

/-- The generators of a basis. -/
def generators : Basis → List Permutation
  | identity => []
  | rotated => [quarterTurn]
  | rotatedHex => [sixthTurn]
  | rotated180Hex => [halfTurn]
  | rotatedFlipped => [quarterTurn, flipDiagonal]
  | rotatedFlippedHex => [sixthTurn, flipDiagonal]
  | semiTotalistic => [quarterTurn, swapCorners, swapSides]
  | totalistic => [quarterTurn, swapCorners, swapCornerSide]
  | totalisticHex => [sixthTurn, swapCornerSide]
  | rotatedTriBelow => [turnBelow]
  | rotatedTriAbove => [turnAbove]

/-- The name of a basis in settings. -/
def name : Basis → String
  | identity => "identity"
  | rotated => "rotated"
  | rotatedHex => "rotated_hex"
  | rotated180Hex => "rotated_180_hex"
  | rotatedFlipped => "rotated_flipped"
  | rotatedFlippedHex => "rotated_flipped_hex"
  | semiTotalistic => "semi_totalistic"
  | totalistic => "totalistic"
  | totalisticHex => "totalistic_hex"
  | rotatedTriBelow => "rotated_tri_below"
  | rotatedTriAbove => "rotated_tri_above"

/-- All bases. -/
def all : List Basis :=
  [identity, rotated, rotatedHex, rotated180Hex, rotatedFlipped, rotatedFlippedHex, semiTotalistic,
    totalistic, totalisticHex, rotatedTriBelow, rotatedTriAbove]

/-- The basis of a name. -/
def ofName? (name : String) : Option Basis := all.find? fun b => b.name == name

end Basis

end CellSat
