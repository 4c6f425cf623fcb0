import CellSat.Command.Help
import CellSat.Problem.Basic
import CellSat.Solve.Search
import CellSat.Terminal
/-!
# Executing commands

* `Command.execute`: a command on any host;
* `Command.invoke`: the whole program, from its arguments to its exit code.
-/

namespace CellSat

variable {m : Type → Type} [Monad m] [Host m]

/-- Whether the host's terminal shows colors. -/
def Terminal.hasColors : Run m Bool := do
  return supportsColor (← Host.environment "NO_COLOR") (← Host.environment "TERM")

/-- Print a line in a color. -/
def Terminal.printColored (color : Color) (text : String) : Run m Unit := do
  Run.printLine (colored (← hasColors) color text)

namespace Command

/-! ## Searching -/

/-- The settings of a file, or the usual ones if there is no such file. -/
def loadSettings (path : Path) : Run m Settings := do
  if ← Host.pathExists path then Run.within (.loadSettings path) (Settings.load path)
  else
    Terminal.printColored .yellow ("Config file " ++ path.text ++ " not found, using defaults")
    return Settings.default

/-- Search for patterns as settings say. -/
def executeRun (oracle : Oracle) (path : Path) (overrides : Overrides) : Run m Unit := do
  let settings := (← loadSettings path).override overrides
  Run.within .validateConfiguration settings.validate
  let start ← Host.time
  let problem ← Run.within .buildProblem (GridProblem.ofSettings settings)
  Run.printLine problem.encoder.statistics.render
  let solutions ← Run.within .solveProblem (problem.solve oracle)
  if solutions.isEmpty then Terminal.printColored .yellow "No solutions found"
  else
    let stop ← Host.time
    Terminal.printColored .green ("Found " ++ toString solutions.length ++ " solution(s) in " ++
      Text.renderSeconds (stop - start) ++ "s")
    for s in solutions do
      Run.printLine ("\n" ++ (← Run.ofChecked (s.format settings.output.format)))
    let saved ← problem.saveSolutions solutions
    Terminal.printColored .blue ("Saved " ++ toString saved.length ++ " solution(s) to " ++
      settings.output.directory.text)

/-! ## Files of clauses -/

/-- The clauses of a file. -/
def readClauses (input : Path) : Run m (List Clause) := do
  let content ← Run.within (.openFile input) (Run.openFile input)
  Run.within (.parseFile input) (Run.ofResult (Clause.read content))

/-- Number clauses and write the formula to a file that is there already. -/
def writeFormula (clauses : List Clause) (output : Path) : Run m Formula := do
  let formula ← Run.ofResult (Formula.compile clauses)
  Run.writeFile output formula.write
  return formula

/-- Number the clauses of a file. -/
def executeCompile (input : Path) (output : Option Path) : Run m Unit := do
  let clauses ← readClauses input
  let output := output.getD (input.withExtension "dim")
  Run.within (.createFile output) (Run.createFile output)
  let formula ← writeFormula clauses output
  Terminal.printColored .green ("Wrote " ++ toString formula.variableCount ++ " variables and " ++
    toString formula.clauseCount ++ " clauses to " ++ output.text)

/-- Find models of the clauses of a file. -/
def executeSolve (oracle : Oracle) (input : Path) (count : Nat) (format : OutputFormat) :
    Run m Unit := do
  let clauses ← readClauses input
  let output := input.withExtension "dim"
  Run.createFile output
  let formula ← writeFormula clauses output
  let models ← Run.ofResult ((Session.addFormula {} formula).solveMultiple oracle count).1
  if models.isEmpty then Terminal.printColored .yellow "Unsatisfiable"
  else
    for model in models do
      let values ← Run.ofResult (Assignment.decode formula.symbols model)
      Terminal.printColored .blue "Assignments to values are:"
      Host.print (← Run.ofChecked (format.render values))

/-! ## Answers of solver programs -/

/-- Show the answer of a solver program. -/
def executeDecode (formula answer : Path) (format : OutputFormat) : Run m Unit := do
  let formula ← Run.within (.openFile formula) (Run.openFile formula)
  let answer ← Run.within (.openFile answer) (Run.openFile answer)
  let values ← Run.within .decodeOutput (Run.ofResult (Assignment.load formula answer))
  Host.print (← Run.ofChecked (format.render values))

/-- Rule the answer of a solver program out. -/
def executeExclude (formula answer : Path) (output : Option Path) : Run m Unit := do
  let formula ← Run.within (.readFile formula) (Run.readText formula)
  let answer ← Run.within (.readFile answer) (Run.readText answer)
  let excluded ← Run.ofResult (Formula.exclude formula answer)
  match output with
  | some path => Run.within (.writeFile path) (Run.writeFile path excluded)
  | none => Host.print excluded

/-! ## Beginning -/

/-- Write a file, unless there is one that has to be kept, and tell about it. -/
def putFile (path : Path) (force : Bool) (write : Run m Unit) : Run m Unit := do
  if (← Host.pathExists path) && !force then
    Run.printLine ("Skipped: " ++ path.text ++ " (already exists)")
  else
    write
    Run.printLine ("Created: " ++ path.text)

/-- The search for an oscillator, with the rule in a file. -/
def oscillatorSettings : Settings :=
  let s := Settings.default
  { s with
    grid := { s.grid with period := 2 }
    rule := { s.rule with templateFile := some ⟨"rules/life.sym"⟩ }
    output := { s.output with fileRoot := "oscillator" } }

/-- Write settings and a rule to begin with. -/
def executeSetup (directory : Path) (force : Bool) : Run m Unit := do
  let config := directory.join ⟨"config"⟩
  let rules := directory.join ⟨"rules"⟩
  for d in [config, rules] do
    Run.within (.setUpDirectory d) (Run.createDirectories d)
  let settings := config.join ⟨"default.yaml"⟩
  putFile settings force (Run.within .setUpSettings (Settings.default.save settings))
  let life := rules.join ⟨"life.sym"⟩
  putFile life force (Run.within (.writeFile life) (Run.writeFile life lifeTemplateText))
  oscillatorSettings.save (config.join ⟨"oscillator.yaml"⟩)
  Host.print "\n"
  Terminal.printColored .green "Setup complete!"
  Run.printLine ("Run: gridsat run --config " ++ settings.text)

/-! ## The program -/

/-- Execute a command. -/
def execute (oracle : Oracle) : Command → Run m Unit
  | run settings overrides => executeRun oracle settings overrides
  | compile input output => executeCompile input output
  | solve input count format => executeSolve oracle input count format
  | decode formula answer format => executeDecode formula answer format
  | exclude formula answer output => executeExclude formula answer output
  | setup directory force => executeSetup directory force

/-- The exit code of a report: arithmetic that leaves its range is told from all else. -/
def exitCode (r : Report) : Nat := if r.fault?.isSome then 101 else 1

/-- Run the program with arguments and return its exit code. -/
def invoke (oracle : Oracle) (arguments : List String) : m Nat := do
  match Invocation.parse arguments with
  | .invalid flaw =>
    Host.printError flaw.message
    return 2
  | .help shape full =>
    Host.print ((shape.map fun s => s.help full).getD helpText)
    return 0
  | .version =>
    Host.print "gridsat 0.1.0\n"
    return 0
  | .command c =>
    match ← (execute oracle c).run with
    | .ok () => return 0
    | .error r =>
      Host.printError r.display
      return exitCode r

end Command

end CellSat
