import CellSat.Entries
import CellSat.Grid.Node
import CellSat.Template.Turn
/-!
# Substitutions

A substitution says which variable a symbol of a template stands for at one node, and how that
variable's cell is oriented.

* `Substitution`;
* `Lattice.substitution64`: the substitution of a node, in which neighbours are cell variables,
  cells outside are the wire that is always false, and helpers belong to the node;
* `Substitution.apply`: its action on literals.
-/

namespace CellSat

/-- What a symbol stands for: the name of a variable, and the orientation of its cell. -/
structure Target where
  name : String
  orientation : Nat
  deriving DecidableEq, Repr

/-- The targets of symbols. -/
abbrev Substitution := Entries Target

/-- The action on a literal. Symbols without a target stand for themselves. -/
def Substitution.apply (s : Substitution) (turn : Turn) (l : Literal) : Literal :=
  match s.lookup l.name with
  | none => l
  | some target =>
    { l with name := target.name, tag := l.tag.map (turn.adjust target.orientation) }

namespace Lattice

variable (lattice : Lattice)

/-- The variable of a node: its own, or the false wire if it is outside. -/
def target (n : Node) : Target :=
  ⟨if lattice.isOutside n then Literal.zeroName else n.name, n.orientation⟩

/-- The targets of the neighbours that symbols name. -/
def neighborTargets64 (n : Node) : List String → Checked (List (String × Target))
  | [] => .ok []
  | symbol :: symbols => do
    let neighbor ← lattice.neighbor64? symbol n
    let rest ← neighborTargets64 n symbols
    return (neighbor.map fun m => (symbol, lattice.target m)).toList ++ rest

/-- The targets of helpers at a node. -/
def helperTargets (n : Node) (helpers : List String) : List (String × Target) :=
  helpers.map fun helper => (helper, ⟨helper ++ n.name, n.orientation⟩)

/-- The substitution of a node. -/
def substitution64 (helpers : List String) (n : Node) : Checked Substitution := do
  let neighbors ← lattice.neighborTargets64 n Symbol.neighbors
  return Entries.ofList
    (neighbors ++ (Symbol.center, lattice.target n) :: helperTargets n helpers)

end Lattice

end CellSat
