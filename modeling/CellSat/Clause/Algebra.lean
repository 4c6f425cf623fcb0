import CellSat.Clause
/-!
# The algebra of disjunctions

A list of disjunctions stands for their conjunction. The operations below compute with such
conjunctions: the conjunction equivalent to the "or" of two of them, the removal of disjunctions
that follow from smaller ones, and the full tuples over all variables.

* `isTautology`, `union`, `orOf`, `removeRedundant`;
* `flattenOr`: one conjunction for a disjunction of conjunctions;
* `canonical`, `trueTuples`: the falsifying and the satisfying tuples of a conjunction.
-/

namespace CellSat.Disjunction

/-- Whether some literal stands in the disjunction together with its negation. -/
def isTautology (d : Disjunction) : Bool := d.any fun l => d.contains l.negate

/-- The disjunction of two disjunctions, sorted and without repetitions. -/
def union (c d : Disjunction) : Disjunction := Literal.toSet (c ++ d)

/-- The conjunction equivalent to "all of `cs`, or all of `ds`": every union of one disjunction
from each side that is not a tautology, in increasing order. -/
def orOf (cs ds : List Disjunction) : List Disjunction :=
  toSet ((cs.flatMap fun c => ds.map (union c)).filter fun d => !isTautology d)

/-- Whether `c`, as a set of literals, is properly contained in `d`. -/
def strictlySmaller (c d : Disjunction) : Bool :=
  decide ((Literal.toSet c).length < (Literal.toSet d).length) && c.all d.contains

/-- Drop every disjunction that properly contains another one of the list. -/
def removeRedundant (ds : List Disjunction) : List Disjunction :=
  ds.filter fun d => !ds.any fun c => strictlySmaller c d

/-- The conjunction equivalent to "all of one of the alternatives", without redundant members.
No alternative at all gives the empty disjunction, which is false. -/
def flattenOr (alternatives : List (List Disjunction)) : List Disjunction :=
  alternatives.foldl (fun ds alternative => removeRedundant (orOf ds alternative)) [[]]

/-- Two disjunctions of which a boolean variable can satisfy only one. -/
def alwaysFalse (name : String) : List Disjunction :=
  [[{ name }], [{ name, positive := false }]]

/-- Extend every disjunction to mention each of the names, in all ways. -/
def extendBy (names : List String) (ds : List Disjunction) : List Disjunction :=
  names.foldl (fun ds name => orOf ds (alwaysFalse name)) ds

/-- The conjunction in which every disjunction mentions every variable of the list. -/
def canonical (ds : List Disjunction) : List Disjunction :=
  extendBy (Clause.namesOf ds) (toSet (ds.map Literal.toSet))

/-- The tuples of one literal per variable that satisfy every disjunction of boolean literals:
those whose opposite disjunction is missing from the canonical form. -/
def trueTuples (ds : List Disjunction) : List Disjunction :=
  let excluded := canonical ds
  ((extendBy (Clause.namesOf ds) [[]]).filter fun d => !excluded.contains d).map
    fun d => d.map Literal.negate

end CellSat.Disjunction
