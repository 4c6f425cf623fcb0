import CellSat.Entries
import CellSat.Literal
/-!
# Permutations of neighbour symbols

A template clause speaks about the cells around a centre by symbols. A permutation moves symbols
and fixes all that it does not mention.

* `Permutation.ofCycles`, `Permutation.apply`, `Permutation.inverse`, `Permutation.moves`;
* `Permutation.onDisjunction`: the action on the names of a disjunction.
-/

namespace CellSat

/-- A map of symbols, given by its entries in increasing order of what is mapped. -/
structure Permutation where
  entries : Entries String
  deriving DecidableEq, Repr

namespace Permutation

/-- Each symbol of a cycle with the next one, and the last with the first. -/
def cycleEntries : List String → List (String × String)
  | [] => []
  | first :: rest => (first :: rest).zip (rest ++ [first])

/-- The map that moves each symbol of a cycle to the next one. -/
def ofCycles (cycles : List (List String)) : Permutation :=
  ⟨Entries.ofList (cycles.flatMap cycleEntries)⟩

/-- Whether a symbol has an entry. -/
def moves (p : Permutation) (symbol : String) : Bool := (p.entries.lookup symbol).isSome

/-- The image of a symbol. Symbols without an entry are fixed. -/
def apply (p : Permutation) (symbol : String) : String := (p.entries.lookup symbol).getD symbol

/-- The map with all entries reversed. -/
def inverse (p : Permutation) : Permutation :=
  ⟨Entries.ofList (p.entries.map fun e => (e.2, e.1))⟩

/-- The action on the names of a disjunction. -/
def onDisjunction (p : Permutation) (d : Disjunction) : Disjunction :=
  d.map fun l => l.rename (p.apply l.name)

end Permutation

end CellSat
