import CellSat.Counter.Bound
import CellSat.Host.Path
import CellSat.Pattern.Render
import CellSat.Solve.Program
/-!
# Settings

What a search is about: the grid, the rule, the bounds on populations, the solver and the output.

* `GridSettings`, `RuleSettings`, `SolverSettings`, `OutputSettings`, `Settings`;
* `Settings.default`: a still life with thirty cells;
* `Overrides`, `Settings.override`: values that replace those of settings.
-/

namespace CellSat

/-- The grid of a search. -/
structure GridSettings where
  folding : Folding
  period : Int
  rowShift : Int := 0
  columnShift : Int := 0
  deriving DecidableEq, Repr

/-- The clock of a grid. -/
def GridSettings.clock (g : GridSettings) : Clock := ⟨g.period, g.rowShift, g.columnShift⟩

/-- The lattice of a grid. -/
def GridSettings.lattice (g : GridSettings) : Lattice := ⟨g.folding, g.clock⟩

/-- The rule of a search. Without a file it is the rule of Life. -/
structure RuleSettings where
  templateFile : Option Path := none
  basis : Basis
  consequent : Option String := none
  deriving DecidableEq, Repr

/-- Who solves. -/
inductive Backend where
  /-- The search of this library. -/
  | internal
  /-- A solver program. -/
  | external
  deriving DecidableEq, Repr

namespace Backend

/-- The name of a backend in settings. -/
def name : Backend → String
  | internal => "cadical"
  | external => "external"

/-- The backend of a name. -/
def ofName? (name : String) : Option Backend := [internal, external].find? fun b => b.name == name

end Backend

/-- The solver of a search. -/
structure SolverSettings where
  backend : Backend := .internal
  command : SolverCommand := .cadical
  seed : Option Nat := none
  /-- How long a run of a program may take; zero is for ever. -/
  timeoutSeconds : Nat := 300
  maxSolutions : Nat := 1
  deriving DecidableEq, Repr

/-- The output of a search. -/
structure OutputSettings where
  directory : Path
  fileRoot : String
  format : OutputFormat
  writeSymbolic : Bool := false
  deriving DecidableEq, Repr

/-- The path of all output files, without their extensions. -/
def OutputSettings.rootPath (o : OutputSettings) : Path := o.directory.join ⟨o.fileRoot⟩

/-- A search. -/
structure Settings where
  grid : GridSettings
  rule : RuleSettings
  population : List Bound := []
  solver : SolverSettings
  output : OutputSettings
  deriving DecidableEq, Repr

namespace Settings

/-- The search for a still life with thirty cells on a square of ten that is turned about its
corners. -/
protected def default : Settings where
  grid := { folding := .tessellated (.rotatedSquare 10), period := 1 }
  rule := { basis := .totalistic, consequent := some Symbol.next }
  population := [{ comparator := .atLeast, size := 30 }]
  solver := {}
  output := {
    directory := ⟨"output"⟩
    fileRoot := "stilllife"
    format := .life
    writeSymbolic := true }

end Settings

/-- Values that replace those of settings. -/
structure Overrides where
  maxSolutions : Option Nat := none
  seed : Option Nat := none
  backend : Option Backend := none
  command : Option SolverCommand := none
  templateFile : Option Path := none
  outputDirectory : Option Path := none
  format : Option OutputFormat := none
  deriving DecidableEq, Repr

/-- Settings with replaced values. -/
def Settings.override (s : Settings) (o : Overrides) : Settings :=
  { s with
    rule := { s.rule with templateFile := o.templateFile.or s.rule.templateFile }
    solver := { s.solver with
      maxSolutions := o.maxSolutions.getD s.solver.maxSolutions
      seed := o.seed.or s.solver.seed
      backend := o.backend.getD s.solver.backend
      command := o.command.getD s.solver.command }
    output := { s.output with
      directory := o.outputDirectory.getD s.output.directory
      format := o.format.getD s.output.format } }

end CellSat
