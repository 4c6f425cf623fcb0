import CellSat.Tag.Bits
/-!
# Relations between many-valued variables

A relation lists the tuples of values that some variables may take together. It is encoded by
ruling out every other tuple of values up to the largest ones listed.

* `Tag.rows`: tuples from rows of values;
* `Tag.matching`: the clauses that hold exactly for the listed tuples.
-/

namespace CellSat.Tag

/-- The literals with each row of tags in turn. A row may be shorter or longer. -/
def rows (ls : Disjunction) (tagRows : List (List Nat)) : List Clause :=
  tagRows.map fun row => .disjunction (List.zipWith Literal.withTag ls row)

/-- Check that a tuple has a tagged literal for each name. -/
def checkTuple (names : List String) (tuple : Disjunction) : Result Unit :=
  if tuple.any Literal.isBoolean then .error (.inconsistent (.untaggedTuple tuple))
  else if (tuple.map (·.name)).mergeSort (fun a b => (compare a b).isLE) ≠ names then
    .error (.inconsistent (.otherNames tuple names))
  else .ok ()

/-- Check all tuples of a relation. -/
def checkTuples (names : List String) : List Disjunction → Result Unit
  | [] => .ok ()
  | tuple :: tuples => do
    checkTuple names tuple
    checkTuples names tuples

/-- The clauses "the values are not these" for all values up to the largest ones, in increasing
order. -/
def exclusions : List (String × Nat) → List Disjunction
  | [] => [[]]
  | (name, max) :: rest =>
    let tails := exclusions rest
    (List.range (max + 1)).flatMap fun tag =>
      tails.map fun tail => { name, positive := false, tag := some tag } :: tail

/-- The clause that rules out a tuple. -/
def exclusion (tuple : Disjunction) : Disjunction :=
  (tuple.map Literal.negate).mergeSort fun a b => (Literal.compare a b).isLE

/-- The clauses that hold exactly if the variables take one of the tuples. -/
def matching (tuples : List Disjunction) : Result (List Disjunction) :=
  if tuples = [] then .error (.inconsistent .noTuples)
  else do
    let max := maxOfTuples tuples
    checkTuples max.keys tuples
    let allowed := tuples.map exclusion
    return (exclusions max.toList).filter fun d => !allowed.contains d

end CellSat.Tag
