import CellSat.Solve.Search
/-!
# Solver sessions

Clauses are added to a session one after the other. Each model that is found is excluded by a
clause, so that the next one differs from it.

* `Session`, `Session.add`, `Session.add32`, `Session.addFormula`;
* `Model.blocking32`: the clause that all other models satisfy;
* `Session.solve`, `Session.solveMultiple`: one model, and several different ones, by an oracle.
-/

namespace CellSat

/-- The greatest variable of a clause. -/
def highestVariable (clause : List Int) : Nat := (clause.map Int.natAbs).foldl Nat.max 0

/-- The clause that every other model satisfies. -/
def Model.blocking32 (numbers : List Int) : Checked (List Int) :=
  numbers.mapM fun n => Word.int32 (-n)

/-- The clauses that were added to a solver. -/
structure Session where
  /-- The clauses that are not empty, the last one first. -/
  clauses : List (List Int) := []
  variableCount : Nat := 0
  clauseCount : Nat := 0
  /-- Whether the empty clause was added. -/
  contradictory : Bool := false
  deriving DecidableEq, Repr

namespace Session

/-- Add a clause. -/
def add (s : Session) (clause : List Int) : Session :=
  if clause.isEmpty then { s with contradictory := true, clauseCount := s.clauseCount + 1 }
  else
    { s with
      clauses := clause :: s.clauses
      variableCount := Nat.max s.variableCount (highestVariable clause)
      clauseCount := s.clauseCount + 1 }

/-- Add a clause of 32-bit numbers. Zero is no literal, nor is the number without an opposite. -/
def add32 (s : Session) (clause : List Int) : Checked Session :=
  if clause.any fun n => n == 0 || n == Word.minInt32 then .error .noLiteral
  else .ok (s.add clause)

/-- Add clauses. -/
def addAll (s : Session) (clauses : List (List Int)) : Session := clauses.foldl add s

/-- Add the clauses of a formula. -/
def addFormula (s : Session) (f : Formula) : Session := s.addAll f.clauses

/-- A model of all clauses, with the variables up to the greatest that have a value. -/
def solve (oracle : Oracle) (s : Session) : Result (Option (List Int)) :=
  if s.contradictory then .ok none
  else
    match oracle s.variableCount s.clauses.reverse with
    | .satisfiable value? => .ok (some (Model.extract s.variableCount value?))
    | .unsatisfiable => .ok none
    | .unknown => .error (.solver .noResult)

/-- Up to so many models, each different from those before. The result is what was found and the
session after it, also if the solver fails. -/
def solveMultiple (oracle : Oracle) : Nat → Session → Result (List (List Int)) × Session
  | 0, s => (.ok [], s)
  | count + 1, s =>
    match s.solve oracle with
    | .error f => (.error f, s)
    | .ok none => (.ok [], s)
    | .ok (some model) =>
      match Model.blocking32 model with
      | .error cause => (.error (.fault cause), s)
      | .ok clause =>
        let (models, s) := solveMultiple oracle count (s.add clause)
        (models.map (model :: ·), s)

end Session

end CellSat
