import CellSat.Failure
import CellSat.Host.Path
import CellSat.Plane.Folding
/-!
# Reports

An application fails in the middle of activities, of which one is part of another. A report names
them, the outermost first, and what went wrong.

* `Activity`: what was going on, and its wording;
* `Defect`: settings that make no sense;
* `Issue`: what went wrong;
* `Report`, `Report.chain`, `Report.message`, `Report.display`.
-/

namespace CellSat

/-- What was going on when something failed. -/
inductive Activity where
  | openTemplate (path : Path)
  | parseTemplate (path : Path)
  | readSettings (path : Path)
  | parseSettings (path : Path)
  | makeDirectory (path : Path)
  | writeSettings (path : Path)
  | loadTemplate
  | checkSettings
  | expandTemplate
  | writeFile (path : Path)
  | compileClauses
  | loadClauses
  | solve
  | decodeSolution (index : Nat)
  | saveSolution (path : Path)
  | loadSettings (path : Path)
  | validateConfiguration
  | buildProblem
  | solveProblem
  | openFile (path : Path)
  | parseFile (path : Path)
  | createFile (path : Path)
  | decodeOutput
  | readFile (path : Path)
  | setUpDirectory (path : Path)
  | setUpSettings
  deriving DecidableEq, Repr

/-- The wording of an activity that failed. -/
def Activity.message : Activity → String
  | openTemplate p => "Failed to open template: " ++ p.text
  | parseTemplate p => "Failed to parse template: " ++ p.text
  | readSettings p => "Failed to read config file: " ++ p.text
  | parseSettings p => "Failed to parse config file: " ++ p.text
  | makeDirectory p => "Failed to create directory: " ++ p.text
  | writeSettings p => "Failed to write config file: " ++ p.text
  | loadTemplate => "Failed to load rule template"
  | checkSettings => "Invalid settings"
  | expandTemplate => "Failed to expand rule template"
  | writeFile p => "Failed to write " ++ p.text
  | compileClauses => "Failed to compile clauses"
  | loadClauses => "Failed to load clauses into solver"
  | solve => "SAT solving failed"
  | decodeSolution n => "Failed to decode solution " ++ toString n
  | saveSolution p => "Failed to save " ++ p.text
  | loadSettings p => "Failed to load config from " ++ p.text
  | validateConfiguration => "Configuration validation failed"
  | buildProblem => "Failed to build grid problem"
  | solveProblem => "Failed to solve grid problem"
  | openFile p => "Failed to open " ++ p.text
  | parseFile p => "Failed to parse " ++ p.text
  | createFile p => "Failed to create " ++ p.text
  | decodeOutput => "Failed to decode solver output"
  | readFile p => "Failed to read " ++ p.text
  | setUpDirectory p => "Failed to create directory " ++ p.text
  | setUpSettings => "Failed to create default configuration"

/-- Settings that make no sense. -/
inductive Defect where
  | period
  | size (folding : Folding)
  | solutionLimit
  | missingTemplate (path : Path)
  deriving DecidableEq, Repr

/-- The wording of a defect. -/
def Defect.message : Defect → String
  | period => "Period must be positive"
  | size folding => "Grid dimensions must be positive: " ++ folding.render
  | solutionLimit => "Maximum solutions must be positive"
  | missingTemplate p => "Template file does not exist: " ++ p.text

/-- What went wrong. -/
inductive Issue where
  | failure (f : Failure)
  | file (e : FileError)
  | defect (d : Defect)
  /-- A text is no data of the expected form. -/
  | unreadable
  deriving DecidableEq, Repr

/-- The wordings of an issue, where a failure of a file repeats that of the file. -/
def Issue.messages : Issue → List String
  | failure (.file e) => [(Failure.file e).message, e.message]
  | failure f => [f.message]
  | file e => [e.message]
  | defect d => [d.message]
  | unreadable => []

/-- An issue with the activities in the middle of which it came up, the outermost first. -/
structure Report where
  activities : List Activity := []
  issue : Issue
  deriving DecidableEq, Repr

namespace Report

/-- The report of an issue. -/
def ofIssue (issue : Issue) : Report := { issue }

/-- The report of a failure. -/
def ofFailure (f : Failure) : Report := { issue := .failure f }

/-- The report of a file error. -/
def ofFile (e : FileError) : Report := { issue := .file e }

/-- The report as part of an activity. -/
def within (activity : Activity) (r : Report) : Report :=
  { r with activities := activity :: r.activities }

/-- The fault of arithmetic that a report is about, if it is about one. -/
def fault? (r : Report) : Option Fault :=
  match r.issue with
  | .failure (.fault cause) => some cause
  | _ => none

/-- The wordings of a report, the outermost first. -/
def chain (r : Report) : List String := r.activities.map Activity.message ++ r.issue.messages

/-- The wordings on one line. -/
def message (r : Report) : String := Text.join ": " r.chain

/-- A text whose lines after the first are moved to the right. -/
def hanging (indent text : String) : String :=
  Text.join ("\n" ++ indent) (Text.splitAt '\n' text)

/-- A cause with its number. All its lines start in the column after the number. -/
def numbered (cause : String × Nat) : String :=
  "    " ++ toString cause.2 ++ ": " ++ hanging "       " cause.1 ++ "\n"

/-- The wordings of the causes, with numbers if there are several. -/
def causes : List String → String
  | [] => ""
  | [cause] => "\nCaused by:\n    " ++ hanging "    " cause ++ "\n"
  | causes => "\nCaused by:\n" ++ String.join (causes.zipIdx.map numbered)

/-- What the command line prints. -/
def display (r : Report) : String :=
  match r.chain with
  | [] => "Error: unreadable data\n"
  | outermost :: rest => "Error: " ++ outermost ++ "\n" ++ causes rest

end Report

end CellSat
