/-!
# Turned tags

A tag may name one of a number of directions. Where the fold of the plane turned a cell, the
directions at that cell are turned back by as many steps.

* `Turn`, `Turn.adjust`: what happens to a tag on a turned cell;
* `Turn.undo?`: the tag up to a largest one that is adjusted to a given one.
-/

namespace CellSat

/-- How tags follow the orientation of cells. -/
inductive Turn where
  /-- Tags are the same on all cells. -/
  | fixed
  /-- Tags below `labels` are directions in cyclic order. -/
  | cyclic (labels : Nat)
  deriving DecidableEq, Repr

namespace Turn

/-- The tag on a cell with the given orientation. -/
def adjust (turn : Turn) (orientation tag : Nat) : Nat :=
  match turn with
  | fixed => tag
  | cyclic labels =>
    if tag < labels then (((tag : Int) - (orientation : Int)) % (labels : Int)).toNat else tag

/-- The first of `count` numbers from `start` on with a property. -/
def firstFrom (p : Nat → Bool) : Nat → Nat → Option Nat
  | 0, _ => none
  | count + 1, start => if p start then some start else firstFrom p count (start + 1)

/-- The least tag up to `maxTag` that is adjusted to the given one. -/
def undo? (turn : Turn) (maxTag orientation adjusted : Nat) : Option Nat :=
  firstFrom (fun tag => turn.adjust orientation tag == adjusted) (maxTag + 1) 0

end Turn

end CellSat
