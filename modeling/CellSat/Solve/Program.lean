import CellSat.Cnf.Assignment
import CellSat.Host
import CellSat.Solve.Session
/-!
# Solver programs

A solver program reads a formula from a file and prints its answer, which is kept in another file.

* `SolverCommand`: the programs that are known, and their arguments;
* `ProgramSolver`, `ProgramSolver.add`, `ProgramSolver.addFormula`;
* `ProgramSolver.runFile`: one run on a file;
* `ProgramSolver.solve`, `ProgramSolver.solveMultiple`.
-/

namespace CellSat

/-- The solver programs. -/
inductive SolverCommand where
  | cadical
  | kissat
  | lingeling
  deriving DecidableEq, Repr

namespace SolverCommand

/-- The name of a program. -/
def program : SolverCommand → String
  | cadical => "cadical"
  | kissat => "kissat"
  | lingeling => "lingeling"

/-- All programs. -/
def all : List SolverCommand := [cadical, kissat, lingeling]

/-- The program of a name. -/
def ofName? (name : String) : Option SolverCommand := all.find? fun c => c.program == name

/-- Whether a program takes a seed. -/
def supportsSeed (c : SolverCommand) : Bool := c ≠ kissat

/-- The arguments for solving a file. -/
def arguments (c : SolverCommand) (input : Path) (seed : Option Nat) : List String :=
  ((seed.filter fun _ => c.supportsSeed).map fun n => "--seed=" ++ toString n).toList ++
    [input.text]

end SolverCommand

/-- A solver that hands its clauses to a program. -/
structure ProgramSolver where
  command : SolverCommand
  seed : Option Nat := none
  /-- How long a run may take, in milliseconds. -/
  timeout : Option Nat := none
  input : Path
  output : Path
  symbols : SymbolTable := {}
  /-- The lines of the formula, the last one first. -/
  lines : List FormulaLine := []
  clauseCount : Nat := 0
  variableCount : Nat := 0

namespace ProgramSolver

/-- Add a clause. -/
def add (p : ProgramSolver) (clause : List Int) : ProgramSolver :=
  { p with
    variableCount := Nat.max p.variableCount (highestVariable clause)
    lines := .clause clause :: p.lines
    clauseCount := p.clauseCount + 1 }

/-- Add a line of a formula. -/
def addLine (p : ProgramSolver) : FormulaLine → ProgramSolver
  | .comment text => { p with lines := .comment text :: p.lines }
  | .clause numbers => p.add numbers

/-- Add a formula with its names and comments. -/
def addFormula (p : ProgramSolver) (f : Formula) : ProgramSolver :=
  let p := { p with
    variableCount := Nat.max p.variableCount f.variableCount
    symbols := f.symbols.toList.foldl (fun t e => t.insert e.1 e.2) p.symbols }
  f.lines.foldl addLine p

/-- The line of a clause, in which a space follows each number. -/
def inputLine : FormulaLine → String
  | .comment text => "c " ++ text
  | .clause numbers => String.join (numbers.map fun n => toString n ++ " ") ++ "0"

/-- The comment that names a variable. -/
def inputName (entry : String × Int) : String :=
  Formula.variableComment ++ entry.1 ++ ": " ++ toString entry.2

/-- The text that the program reads. -/
def inputText (p : ProgramSolver) : String :=
  let lines := Formula.header p.variableCount p.clauseCount :: p.symbols.toList.map inputName ++
    p.lines.reverse.map inputLine
  String.join (lines.map fun line => line ++ "\n")

/-- Whether a text has a line with a given verdict. -/
def hasVerdict (verdict text : String) : Bool :=
  (Text.lines text).any fun line => Text.trim line.toList == verdict.toList

/-- The model in the answer of a program, or none if there is no model. -/
def readAnswer (p : ProgramSolver) (output : Path) (text : String) : Result (Option (List Int)) :=
  if hasVerdict "s UNSATISFIABLE" text then .ok none
  else if hasVerdict "s SATISFIABLE" text then (Assignment.read (.text text)).map some
  else .error (.solver (.noAnswer p.command.program output.text))

variable {m : Type → Type} [Monad m] [Host m]

/-- A result as a computation that may fail. -/
def ofResult {α : Type} : Result α → ExceptT Failure m α
  | .ok a => pure a
  | .error f => throw f

/-- A file request whose error is a failure. -/
def ofFile {α : Type} (x : Except FileError α) : ExceptT Failure m α :=
  ofResult (FileError.toResult x)

/-- Run the program on a file and keep its answer in another one. -/
def runFile (p : ProgramSolver) (input output : Path) : ExceptT Failure m (Option (List Int)) := do
  let arguments := p.command.arguments input p.seed
  ofFile (← Host.writeFile output "")
  match ← Host.launch p.command.program arguments output p.timeout with
  | .notStarted cause => throw (.solver (.cannotStart p.command.program cause))
  | .timedOut => throw (.timeout (p.timeout.getD 0 / 1000))
  | .finished =>
    let content ← ofFile (← Host.openFile output)
    let text ← ofFile content.wholeText
    ofResult (p.readAnswer output text)

/-- Write the clauses and run the program on them. -/
def solve (p : ProgramSolver) : ExceptT Failure m (Option (List Int)) := do
  ofFile (← Host.writeFile p.input p.inputText)
  p.runFile p.input p.output

/-- Solve again and again, each time with a clause against the last answer. The result is what was
found and the solver after it, also if a run fails. -/
def solveMultiple : Nat → ProgramSolver → m (Result (List (List Int)) × ProgramSolver)
  | 0, p => return (.ok [], p)
  | count + 1, p => do
    match ← p.solve.run with
    | .error f => return (.error f, p)
    | .ok none => return (.ok [], p)
    | .ok (some model) =>
      match Model.blocking32 model with
      | .error cause => return (.error (.fault cause), p)
      | .ok clause =>
        let (models, p) ← solveMultiple count (p.add clause)
        return (models.map (model :: ·), p)

end ProgramSolver

end CellSat
