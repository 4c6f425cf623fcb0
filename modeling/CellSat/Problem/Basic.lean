import CellSat.Problem.Solution
import CellSat.Problem.Validation
import CellSat.Settings.File
import CellSat.Solve.Backend
/-!
# Grid problems

Settings become clauses, the clauses a formula in a file, and the models of the formula solutions.

* `GridProblem`, `GridProblem.ofSettings`, `GridProblem.withTemplate`;
* `GridProblem.compile`: the formula, written to its file;
* `Found`, `GridProblem.find`: the models that a solver finds;
* `GridProblem.decode`: the solutions that models stand for;
* `GridProblem.solve`, `GridProblem.saveSolutions`.
-/

namespace CellSat

/-- Settings with the clauses that they stand for. -/
structure GridProblem where
  settings : Settings
  encoder : Encoder

/-- What a solver found. -/
structure Found where
  formula : Formula
  models : List (List Int)
  /-- How long it took, in nanoseconds. -/
  time : Nat

namespace GridProblem

/-- The clauses of settings with the given rule. -/
def encode (s : Settings) (template : List Clause) : Result Encoder := do
  let e ← Encoder.ofLattice s.grid.lattice
  let e ← e.addRule template s.rule.basis s.rule.consequent .fixed
  e.addBounds s.population

/-- The path of an output file. -/
def outputPath (p : GridProblem) (extension : String) : Path :=
  p.settings.output.rootPath.withExtension extension

/-- The solution that a model stands for, if it satisfies the formula. -/
def decodeModel (p : GridProblem) (f : Formula) (time : Nat) (model : List Int × Nat) :
    Except Report (Option Solution) :=
  let index := model.2 + 1
  if (f.validate model.1).isValid then
    match Assignment.decode f.symbols model.1 with
    | .error failure => .error (Report.within (.decodeSolution index) (.ofFailure failure))
    | .ok values =>
      match Solution.ofValues index values p.settings.grid.folding.render f.variableCount
          f.clauseCount time with
      | .error cause => .error (.ofFailure (.fault cause))
      | .ok solution => .ok (some solution)
  else .ok none

/-- The solutions that models stand for. Models that do not satisfy the formula are left out. -/
def decode (p : GridProblem) (found : Found) : Except Report (List Solution) := do
  return (← found.models.zipIdx.mapM (p.decodeModel found.formula found.time)).filterMap id

/-- The file of a solution: the root with its number, of three digits at least. -/
def solutionPath (p : GridProblem) (s : Solution) : Path :=
  p.settings.output.rootPath.withFileName
    (p.settings.output.fileRoot ++ "_" ++ Text.padStart 3 '0' (toString s.index) ++ ".json")

variable {m : Type → Type} [Monad m] [Host m]

/-- The problem of settings with the given rule. -/
def withTemplate (s : Settings) (template : List Clause) : Run m GridProblem := do
  Run.within .checkSettings s.validate
  let encoder ← Run.within .expandTemplate (Run.ofResult (encode s template))
  return { settings := s, encoder }

/-- The problem of settings, with the rule that they name. -/
def ofSettings (s : Settings) : Run m GridProblem := do
  let template ← Run.within .loadTemplate s.rule.template
  withTemplate s template

/-- Number the clauses, and write them with and, if asked for, without numbers. -/
def compile (p : GridProblem) : Run m Formula := do
  let directory := p.settings.output.directory
  Run.within (.makeDirectory directory) (Run.createDirectories directory)
  if p.settings.output.writeSymbolic then
    Run.writeFile (p.outputPath "sym") (Clause.write p.encoder.clauses)
  let formula ← Run.within .compileClauses (Run.ofResult p.encoder.compile)
  Run.writeFile (p.outputPath "dim") formula.write
  return formula

/-- Compile and solve. -/
def find (oracle : Oracle) (p : GridProblem) : Run m Found := do
  let formula ← p.compile
  let solver := (Solver.ofSettings p.settings.solver p.settings.output.rootPath).addFormula formula
  let start ← Host.time
  let (found, _) ← solver.solveMultiple oracle p.settings.solver.maxSolutions
  let stop ← Host.time
  let models ← Run.within .solve (Run.ofResult found)
  if p.settings.solver.backend = .internal then
    let path := p.outputPath "out"
    Run.within (.writeFile path) (Run.writeFile path (Assignment.write models.head?))
  return { formula, models, time := stop - start }

/-- Compile, solve and decode. -/
def solve (oracle : Oracle) (p : GridProblem) : Run m (List Solution) := do
  let found ← p.find oracle
  MonadExcept.ofExcept (p.decode found)

/-- Write each solution to a file of its own. -/
def saveSolutions (p : GridProblem) : List Solution → Run m (List Path)
  | [] => return []
  | s :: solutions => do
    let path := p.solutionPath s
    Run.within (.saveSolution path) (s.save path)
    return path :: (← saveSolutions p solutions)

end GridProblem

end CellSat
