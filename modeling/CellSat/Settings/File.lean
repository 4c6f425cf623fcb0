import CellSat.Data.Yaml.Read
import CellSat.Data.Yaml.Write
import CellSat.Host
import CellSat.Problem.Encoder
import CellSat.Settings.Form
/-!
# Settings in files

* `Settings.shape`: what a file of settings is asked for;
* `Settings.validate`: whether settings make sense;
* `Settings.load`, `Settings.save`: settings in files;
* `RuleSettings.template`: the clauses of a rule.
-/

namespace CellSat

variable {m : Type → Type} [Monad m] [Host m]

namespace Settings

/-- What is asked for in a file. -/
def shape : Yaml.Shape :=
  .record [
    ("grid", .record [("equivalence", .variant), ("period", .signed), ("shift", .list .signed)]),
    ("rule", .record [("template_file", .optional .text), ("symmetry", .choice),
      ("consequent", .optional .text)]),
    ("population", .list (.record [("comparator", .choice), ("size", .signed),
      ("generation", .signed), ("helper", .optional .text)])),
    ("solver", .record [("backend", .choice), ("command", .choice), ("seed", .optional .unsigned),
      ("timeout_seconds", .unsigned), ("max_solutions", .unsigned)]),
    ("output", .record [("directory", .text), ("file_root", .text), ("format", .choice),
      ("write_symbolic", .truth)])]

/-- What is wrong with settings, apart from their files. -/
def defect? (s : Settings) : Option Defect :=
  if s.grid.period ≤ 0 then some .period
  else if s.grid.folding.rows ≤ 0 ∨ s.grid.folding.columns ≤ 0 then some (.size s.grid.folding)
  else if s.solver.maxSolutions = 0 then some .solutionLimit
  else none

/-- Check that settings make sense. -/
def validate (s : Settings) : Run m Unit := do
  match s.defect? with
  | some d => throw (.ofIssue (.defect d))
  | none =>
    match s.rule.templateFile with
    | none => return
    | some path =>
      if ← Host.pathExists path then return
      else throw (.ofIssue (.defect (.missingTemplate path)))

/-- Settings from the text of a file. -/
def parse? (text : String) : Option Settings := (Data.parseYaml? shape text).bind ofData?

/-- Settings from a file. -/
def load (path : Path) : Run m Settings := do
  let text ← Run.within (.readSettings path) (Run.readText path)
  match parse? text with
  | none => throw (Report.within (.parseSettings path) (.ofIssue .unreadable))
  | some s =>
    s.validate
    return s

/-- Write settings to a file. -/
def save (s : Settings) (path : Path) : Run m Unit := do
  match path.parent? with
  | none => pure ()
  | some parent => Run.within (.makeDirectory parent) (Run.createDirectories parent)
  Run.within (.writeSettings path) (Run.writeFile path s.toData.toYaml)

end Settings

/-- The clauses of a rule. -/
def RuleSettings.template (r : RuleSettings) : Run m (List Clause) :=
  match r.templateFile with
  | none => Run.ofResult lifeTemplate
  | some path => do
    let content ← Run.within (.openTemplate path) (Run.openFile path)
    Run.within (.parseTemplate path) (Run.ofResult (Clause.read content))

end CellSat
