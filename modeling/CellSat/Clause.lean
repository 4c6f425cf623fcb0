import CellSat.Literal
/-!
# Clause lists

One line of a clause list is a comment, which is carried along and constrains nothing, or a
disjunction. A list means the conjunction of its disjunctions.

* `Clause`, `Clause.disjunction?`;
* `Clause.literals`, `Clause.variableNames`: what a list mentions.
-/

namespace CellSat

/-- One line of a clause list. -/
inductive Clause where
  /-- A remark without meaning. -/
  | comment (text : String)
  /-- At least one of the literals holds. -/
  | disjunction (literals : Disjunction)
  deriving DecidableEq, Repr

namespace Clause

/-- The clause that asks for one literal. -/
def unit (l : Literal) : Clause := .disjunction [l]

/-- Whether a line is a remark. -/
def isComment : Clause → Bool
  | .comment _ => true
  | .disjunction _ => false

/-- The disjunction of a line that is one. -/
def disjunction? : Clause → Option Disjunction
  | .comment _ => none
  | .disjunction d => some d

/-- The disjunctions of a list, in order. -/
def disjunctions (cs : List Clause) : List Disjunction := cs.filterMap disjunction?

/-- The literals of a list in increasing order, each of them once. -/
def literals (cs : List Clause) : List Literal := Literal.toSet (disjunctions cs).flatten

/-- The names that disjunctions mention, in increasing order, each of them once. -/
def namesOf (ds : List Disjunction) : List String :=
  sortedSet compare (ds.flatten.map (·.name))

/-- The names that a list mentions, in increasing order, each of them once. -/
def variableNames (cs : List Clause) : List String := namesOf (disjunctions cs)

end Clause

end CellSat
