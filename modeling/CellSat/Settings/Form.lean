import CellSat.Plane.Form
import CellSat.Settings
/-!
# Settings as data

* `Bound.ofData?`, `SolverSettings.ofData?`, `Settings.ofData?`: reading;
* `Settings.toData`: writing, with all fields;
* `Overrides.ofData?`: reading values that replace others.
-/

namespace CellSat

/-- Read a path. -/
def Path.ofData? (d : Data) : Option Path := d.toText?.map Path.mk

/-- Read a bound. -/
def Bound.ofData? (d : Data) : Option Bound :=
  match d.record? ["comparator", "size", "generation", "helper"] with
  | some [comparator, size, generation, helper] => do
    return {
      comparator := ← Field.required (Data.toChoice? Comparator.ofName?) comparator
      size := ← Field.required Data.toInt64? size
      generation := ← Field.withDefault 0 Data.toInt64? generation
      helper := ← Field.optional Data.toText? helper }
  | _ => none

/-- A bound as data. -/
def Bound.toData (b : Bound) : Data :=
  .record [("comparator", .text b.comparator.name), ("size", .int b.size),
    ("generation", .int b.generation), ("helper", .ofOption .text b.helper)]

namespace GridSettings

/-- Read a shift by rows and columns. -/
def shiftOfData? (d : Data) : Option (Int × Int) :=
  match d.toListOf? Data.toInt64? with
  | some [rows, columns] => some (rows, columns)
  | _ => none

/-- Read a grid. -/
def ofData? (d : Data) : Option GridSettings :=
  match d.record? ["equivalence", "period", "shift"] with
  | some [folding, period, shift] => do
    let folding ← Field.required Folding.ofData? folding
    let period ← Field.required Data.toInt64? period
    let (rowShift, columnShift) ← Field.withDefault (0, 0) shiftOfData? shift
    return { folding, period, rowShift, columnShift }
  | _ => none

/-- A grid as data. -/
def toData (g : GridSettings) : Data :=
  .record [("equivalence", g.folding.toData), ("period", .int g.period),
    ("shift", .list [.int g.rowShift, .int g.columnShift])]

end GridSettings

namespace RuleSettings

/-- Read a rule. -/
def ofData? (d : Data) : Option RuleSettings :=
  match d.record? ["template_file", "symmetry", "consequent"] with
  | some [templateFile, basis, consequent] => do
    return {
      templateFile := ← Field.optional Path.ofData? templateFile
      basis := ← Field.required (Data.toChoice? Basis.ofName?) basis
      consequent := ← Field.optional Data.toText? consequent }
  | _ => none

/-- A rule as data. -/
def toData (r : RuleSettings) : Data :=
  .record [("template_file", .ofOption (fun p => .text p.text) r.templateFile),
    ("symmetry", .text r.basis.name), ("consequent", .ofOption .text r.consequent)]

end RuleSettings

namespace SolverSettings

/-- Read a solver. -/
def ofData? (d : Data) : Option SolverSettings :=
  match d.record? ["backend", "command", "seed", "timeout_seconds", "max_solutions"] with
  | some [backend, command, seed, timeoutSeconds, maxSolutions] => do
    return {
      backend := ← Field.required (Data.toChoice? Backend.ofName?) backend
      command := ← Field.required (Data.toChoice? SolverCommand.ofName?) command
      seed := ← Field.optional Data.toNat64? seed
      timeoutSeconds := ← Field.required Data.toNat64? timeoutSeconds
      maxSolutions := ← Field.required Data.toNat64? maxSolutions }
  | _ => none

/-- A solver as data. -/
def toData (s : SolverSettings) : Data :=
  .record [("backend", .text s.backend.name), ("command", .text s.command.program),
    ("seed", .ofOption .ofNat s.seed), ("timeout_seconds", .ofNat s.timeoutSeconds),
    ("max_solutions", .ofNat s.maxSolutions)]

end SolverSettings

namespace OutputSettings

/-- Read an output. -/
def ofData? (d : Data) : Option OutputSettings :=
  match d.record? ["directory", "file_root", "format", "write_symbolic"] with
  | some [directory, fileRoot, format, writeSymbolic] => do
    return {
      directory := ← Field.required Path.ofData? directory
      fileRoot := ← Field.required Data.toText? fileRoot
      format := ← Field.required (Data.toChoice? OutputFormat.ofName?) format
      writeSymbolic := ← Field.withDefault false Data.toBool? writeSymbolic }
  | _ => none

/-- An output as data. -/
def toData (o : OutputSettings) : Data :=
  .record [("directory", .text o.directory.text), ("file_root", .text o.fileRoot),
    ("format", .text o.format.name), ("write_symbolic", .bool o.writeSymbolic)]

end OutputSettings

namespace Settings

/-- Read settings. -/
def ofData? (d : Data) : Option Settings :=
  match d.record? ["grid", "rule", "population", "solver", "output"] with
  | some [grid, rule, population, solver, output] => do
    return {
      grid := ← Field.required GridSettings.ofData? grid
      rule := ← Field.required RuleSettings.ofData? rule
      population := ← Field.withDefault [] (Data.toListOf? Bound.ofData?) population
      solver := ← Field.required SolverSettings.ofData? solver
      output := ← Field.required OutputSettings.ofData? output }
  | _ => none

/-- Settings as data. -/
def toData (s : Settings) : Data :=
  .record [("grid", s.grid.toData), ("rule", s.rule.toData),
    ("population", .list (s.population.map Bound.toData)), ("solver", s.solver.toData),
    ("output", s.output.toData)]

end Settings

/-- Read values that replace those of settings. -/
def Overrides.ofData? (d : Data) : Option Overrides :=
  match d.record? ["max_solutions", "seed", "backend", "command", "template_file", "output_dir",
      "format"] with
  | some [maxSolutions, seed, backend, command, templateFile, outputDirectory, format] => do
    return {
      maxSolutions := ← Field.optional Data.toNat64? maxSolutions
      seed := ← Field.optional Data.toNat64? seed
      backend := ← Field.optional (Data.toChoice? Backend.ofName?) backend
      command := ← Field.optional (Data.toChoice? SolverCommand.ofName?) command
      templateFile := ← Field.optional Path.ofData? templateFile
      outputDirectory := ← Field.optional Path.ofData? outputDirectory
      format := ← Field.optional (Data.toChoice? OutputFormat.ofName?) format }
  | _ => none

end CellSat
