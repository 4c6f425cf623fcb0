import CellSat.Cnf.Formula
/-!
# Numbered clauses and their models

A model of numbered clauses is a list of signed numbers, one for each variable. The plainest way to
find one is to try both values of each variable in turn.

* `Verdict`, `Oracle`: a function that answers whether numbered clauses have a model, and then gives
  values to variables;
* `Model.extract`: the model of such values;
* `Model.satisfies`: whether a clause has a literal in common with a list of signed numbers;
* `Split.solve`: the oracle that tries all values.
-/

namespace CellSat

/-- What is said about numbered clauses. -/
inductive Verdict where
  /-- They have a model, in which variables have these values. -/
  | satisfiable (value? : Nat → Option Bool)
  | unsatisfiable
  /-- The search was given up. -/
  | unknown

/-- A function that gives a verdict on clauses over so many variables. -/
abbrev Oracle := Nat → List (List Int) → Verdict

namespace Model

/-- The literal that holds when a variable has a value. -/
def literal (number : Nat) (value : Bool) : Int := if value then number else -number

/-- The literals that hold when the variables up to a number have given values. A variable without
a value is left out. -/
def extract (width : Nat) (value? : Nat → Option Bool) : List Int :=
  (List.range width).filterMap fun i => (value? (i + 1)).map (literal (i + 1))

/-- The value of a variable in a list of signed numbers. -/
def sign? (numbers : List Int) (number : Nat) : Option Bool :=
  if numbers.contains (literal number true) then some true
  else if numbers.contains (literal number false) then some false
  else none

/-- Whether one of the numbers of a clause is given. -/
def satisfies (numbers : List Int) (clause : List Int) : Bool := clause.any numbers.contains

/-- Whether all clauses are satisfied. -/
def satisfiesAll (numbers : List Int) (clauses : List (List Int)) : Bool :=
  clauses.all (satisfies numbers)

end Model

namespace Split

/-- The clauses that are left when a number is given: those without it, without its opposite. -/
def assign (number : Int) (clauses : List (List Int)) : List (List Int) :=
  (clauses.filter fun c => !c.contains number).map fun c => c.filter (· ≠ -number)

/-- Try both values of the variables from a number on, so many of them. -/
def solveFrom : Nat → Nat → List (List Int) → Option (List Int)
  | 0, _, clauses => if clauses.isEmpty then some [] else none
  | count + 1, first, clauses =>
    if clauses.contains [] then none
    else
      let v : Int := first
      match solveFrom count (first + 1) (assign v clauses) with
      | some model => some (v :: model)
      | none => (solveFrom count (first + 1) (assign (-v) clauses)).map fun model => -v :: model

/-- The oracle that tries all values. -/
def solve : Oracle := fun width clauses =>
  match solveFrom width 1 clauses with
  | some model => .satisfiable (Model.sign? model)
  | none => .unsatisfiable

end Split

end CellSat
