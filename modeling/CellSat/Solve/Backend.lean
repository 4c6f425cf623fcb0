import CellSat.Settings
/-!
# Solvers of either kind

* `Solver`: a session of the search of this library, or a solver program;
* `Solver.ofSettings`: the solver that settings ask for;
* `Solver.add32`, `Solver.addFormula`, `Solver.solve`, `Solver.solveMultiple`.
-/

namespace CellSat

/-- A solver. -/
inductive Solver where
  | internal (session : Session)
  | external (program : ProgramSolver)

namespace Solver

/-- The solver that settings ask for. A program exchanges files named after a root. -/
def ofSettings (s : SolverSettings) (root : Path) : Solver :=
  match s.backend with
  | .internal => internal {}
  | .external => external {
      command := s.command
      seed := s.seed
      timeout := if 0 < s.timeoutSeconds then some (1000 * s.timeoutSeconds) else none
      input := root.withExtension "dim"
      output := root.withExtension "out" }

/-- The kind of a solver. -/
def backend : Solver → Backend
  | internal _ => .internal
  | external _ => .external

/-- The number of variables. -/
def variableCount : Solver → Nat
  | internal s => s.variableCount
  | external p => p.variableCount

/-- The number of clauses. -/
def clauseCount : Solver → Nat
  | internal s => s.clauseCount
  | external p => p.clauseCount

/-- Add a clause. A program is given any numbers. -/
def add32 (clause : List Int) : Solver → Checked Solver
  | internal s => (s.add32 clause).map internal
  | external p => .ok (external (p.add clause))

/-- Add a formula. -/
def addFormula (f : Formula) : Solver → Solver
  | internal s => internal (s.addFormula f)
  | external p => external (p.addFormula f)

variable {m : Type → Type} [Monad m] [Host m]

/-- A model of all clauses, if there is one. -/
def solve (oracle : Oracle) : Solver → m (Result (Option (List Int)))
  | internal s => return s.solve oracle
  | external p => p.solve.run

/-- Up to so many different models, and the solver after them. -/
def solveMultiple (oracle : Oracle) (count : Nat) : Solver → m (Result (List (List Int)) × Solver)
  | internal s =>
    let (models, s) := s.solveMultiple oracle count
    return (models, internal s)
  | external p => do
    let (models, p) ← p.solveMultiple count
    return (models, external p)

end Solver

end CellSat
