import CellSat.Clause
import CellSat.Failure
import CellSat.Symmetry.Basis
import Std.Data.HashSet
/-!
# Orbits of clauses

The images of a disjunction under the group that a basis generates. Two images count as one if
they are the same multiset of literals, and the one that was found first stands for both. The
search goes depth first from the disjunction itself, applying the inverse of each generator.

* `Orbit.limit`: the number of images after which a basis counts as malformed;
* `Orbit.images`: all images of a disjunction, in increasing order;
* `Clause.expandSymmetry`: every disjunction of a list replaced by its images.
-/

namespace CellSat

namespace Orbit

/-- The largest number of images of one disjunction. -/
def limit : Nat := 100000

/-- The literals of a disjunction in increasing order, repetitions kept: what two images share if
they are the same multiset. -/
def signature (d : Disjunction) : Disjunction := d.mergeSort fun a b => (Literal.compare a b).isLE

/-- The state of a search: the images found, the last one first, their signatures, and how many
they are. -/
structure Search where
  found : List Disjunction
  signatures : Std.HashSet Disjunction
  count : Nat

/-- A search that has found its start. -/
def Search.start (d : Disjunction) : Search :=
  ⟨[d], Std.HashSet.emptyWithCapacity.insert (signature d), 1⟩

/-- Add the images of `d` under the given maps that are new. The new ones are also put on top of
the stack, in turn. -/
def Search.extend (d : Disjunction) : List Permutation → Search → List Disjunction →
    Result (Search × List Disjunction)
  | [], s, stack => .ok (s, stack)
  | p :: ps, s, stack =>
    let image := p.onDisjunction d
    let key := signature image
    if s.signatures.contains key then extend d ps s stack
    else if limit ≤ s.count then .error (.tooManyImages limit)
    else extend d ps ⟨image :: s.found, s.signatures.insert key, s.count + 1⟩ (image :: stack)

/-- Work off the stack. Every image is on the stack once, so the limit bounds the number of
steps. -/
def Search.run (maps : List Permutation) : Nat → Search → List Disjunction → Result Search
  | 0, s, _ => .ok s
  | _ + 1, s, [] => .ok s
  | fuel + 1, s, d :: stack => do
    let (s, stack) ← s.extend d maps stack
    run maps fuel s stack

/-- All images of a disjunction under the group generated by a basis, in increasing order. -/
def images (basis : List Permutation) (d : Disjunction) : Result (List Disjunction) := do
  let s ← (Search.start d).run (basis.map Permutation.inverse) limit [d]
  return s.found.mergeSort fun a b => (Disjunction.compare a b).isLE

end Orbit

/-- Replace each disjunction of a list by its images. Comments stay. -/
def Clause.expandSymmetry (basis : List Permutation) : List Clause → Result (List Clause)
  | [] => .ok []
  | .comment text :: cs => return .comment text :: (← expandSymmetry basis cs)
  | .disjunction d :: cs => do
    let images ← Orbit.images basis d
    return images.map .disjunction ++ (← expandSymmetry basis cs)

end CellSat
