import CellSat.Command
import CellSat.Command.Shape
/-!
# Reading commands

* `Command.shapes`: the commands with their options;
* `Invocation`, `Invocation.parse`: what a command line asks for.
-/

namespace CellSat

namespace OptionShape

/-- Whether a text names a path. -/
def acceptsPath (text : String) : Bool := text != ""

/-- Whether a text is a number of 64 bits. -/
def acceptsNat (text : String) : Bool := (Text.readNatUpTo? Word.maxNat64 text.toList).isSome

/-- An option that takes a path. -/
def path (long placeholder : String) : OptionShape where
  long := long
  kind := .value placeholder acceptsPath

/-- An option that takes a number. -/
def nat (long placeholder : String) : OptionShape where
  long := long
  kind := .value placeholder acceptsNat

/-- An option that takes one of a few names. -/
def choice (long placeholder : String) (choices : List (String × String)) : OptionShape where
  long := long
  kind := .value placeholder fun text => (choices.map Prod.fst).contains text
  choices := choices

/-- More messages. -/
def verbose : OptionShape where
  long := "verbose"
  short := some 'v'
  kind := .counter
  about := "Increase log verbosity (-v info, -vv debug, -vvv trace)"

/-- Help. -/
def help : OptionShape where
  long := "help"
  short := some 'h'
  kind := .help
  about := "Print help"

/-- The version. -/
def version : OptionShape where
  long := "version"
  short := some 'V'
  kind := .version
  about := "Print version"

/-- The formats of patterns. -/
def formats : List (String × String) :=
  [("list", "Name and value per line"), ("life", "Generation 0 as a Life picture"),
    ("hex", "Generation 0 skewed as a rhombic section of a hex grid"), ("hex_numeric", ""),
    ("exclude", "A symbolic clause ruling the solution out")]

/-- How to print patterns. -/
def format : OptionShape := { choice "format" "FORMAT" formats with short := some 'f' }

/-- Who solves. -/
def backend : OptionShape :=
  choice "backend" "BACKEND"
    [("cadical", "In-process CaDiCaL"), ("external", "A solver program reading DIMACS files")]

/-- Which program solves. -/
def solver : OptionShape :=
  { choice "solver" "SOLVER" (SolverCommand.all.map fun c => (c.program, "")) with
    about := "External solver program (overrides config)" }

/-- The file of a formula. -/
def formulaFile : OptionShape := { path "dimacs-in" "DIMACS_IN" with required := true }

/-- The file of an answer. -/
def answerFile : OptionShape := { path "dimacs-out" "DIMACS_OUT" with required := true }

/-- Where to write. -/
def output (about : String) : OptionShape :=
  { path "output" "OUTPUT" with short := some 'o', about := about }

/-- How many models to find. -/
def maxSolutions : OptionShape :=
  { nat "max-solutions" "MAX_SOLUTIONS" with short := some 'm' }

/-- The options of a command, with those that every command has. -/
def withCommon : List OptionShape → List OptionShape
  | [] => [verbose, help]
  | o :: options => o :: verbose :: options ++ [help]

end OptionShape

namespace Command

open OptionShape

/-- The shape of the command `run`. -/
def runShape : CommandShape where
  name := "run"
  about := "Search a grid for patterns obeying a rule"
  options := withCommon
    [{ path "config" "CONFIG" with
        short := some 'c'
        about := "Configuration file path"
        default := some "config/default.yaml" },
      { path "template" "TEMPLATE" with
        short := some 't'
        about := "Rule template file (overrides config)" },
      { maxSolutions with about := "Maximum solutions to find (overrides config)" },
      { nat "seed" "SEED" with
        about := "Random seed for solvers that accept one (overrides config)" },
      backend, solver, output "Output directory (overrides config)", format]

/-- The shape of the command `compile`. -/
def compileShape : CommandShape where
  name := "compile"
  about := "Compile a symbolic clause file to DIMACS"
  word := some { name := "INPUT" }
  options := withCommon [output "DIMACS file; defaults to the input with extension .dim"]

/-- The shape of the command `solve`. -/
def solveShape : CommandShape where
  name := "solve"
  about := "Compile a symbolic clause file, solve it and print the assignments"
  word := some { name := "INPUT" }
  options := withCommon
    [{ maxSolutions with default := some "1" }, { format with default := some "list" }]

/-- The shape of the command `decode`. -/
def decodeShape : CommandShape where
  name := "decode"
  about := "Decode solver output using the variable comments of its DIMACS file"
  options := withCommon [formulaFile, answerFile, { format with default := some "list" }]

/-- The shape of the command `exclude`. -/
def excludeShape : CommandShape where
  name := "exclude"
  about := "Print the DIMACS file with a clause ruling out the given solution"
  options := withCommon
    [formulaFile, answerFile, output "Write here instead of standard output"]

/-- The shape of the command `setup`. -/
def setupShape : CommandShape where
  name := "setup"
  about := "Create a default configuration and the Life template"
  options := withCommon
    [{ path "directory" "DIRECTORY" with
        short := some 'd'
        about := "Directory to create files in"
        default := some "." },
      { long := "force"
        short := some 'f'
        kind := .switch
        about := "Force overwrite existing files" }]

/-- The commands. -/
def shapes : List CommandShape :=
  [runShape, compileShape, solveShape, decodeShape, excludeShape, setupShape]

/-- The shape of the command that asks for help on others. -/
def helpShape : CommandShape where
  name := "help"
  about := "Print this message or the help of the given subcommand(s)"
  word := some
    { name := "COMMAND", about := "Print help for the subcommand(s)", repeatable := true }

/-- The commands that there is help on. -/
def topics : List CommandShape := shapes ++ [helpShape]

/-- The options before a command. -/
def leadingOptions : List OptionShape := [verbose, help, version]

end Command

namespace Reading

/-- The path of an option. -/
def path? (r : Reading) (name : String) : Option Path := (r.value? name).map Path.mk

/-- The path of an option, or another one. -/
def pathD (r : Reading) (name default : String) : Path := (r.path? name).getD ⟨default⟩

/-- The number of an option. -/
def nat? (r : Reading) (name : String) : Option Nat :=
  (r.value? name).bind fun text => Text.readNatUpTo? Word.maxNat64 text.toList

/-- The format of patterns. -/
def format? (r : Reading) : Option OutputFormat := (r.value? "format").bind OutputFormat.ofName?

/-- The word of a command. -/
def input (r : Reading) : Path := ⟨r.words.headD ""⟩

/-- The values that replace those of settings. -/
def overrides (r : Reading) : Overrides where
  maxSolutions := r.nat? "max-solutions"
  seed := r.nat? "seed"
  backend := (r.value? "backend").bind Backend.ofName?
  command := (r.value? "solver").bind SolverCommand.ofName?
  templateFile := r.path? "template"
  outputDirectory := r.path? "output"
  format := r.format?

/-- The command of a name with what was read. -/
def command? (r : Reading) : String → Option Command
  | "run" => some (.run (r.pathD "config" "config/default.yaml") r.overrides)
  | "compile" => some (.compile r.input (r.path? "output"))
  | "solve" => some (.solve r.input ((r.nat? "max-solutions").getD 1) (r.format?.getD .list))
  | "decode" => do
    return .decode (← r.path? "dimacs-in") (← r.path? "dimacs-out") (r.format?.getD .list)
  | "exclude" => do
    return .exclude (← r.path? "dimacs-in") (← r.path? "dimacs-out") (r.path? "output")
  | "setup" => some (.setup (r.pathD "directory" ".") (r.value? "force").isSome)
  | _ => none

end Reading

/-- What a command line asks for. -/
inductive Invocation where
  | command (c : Command)
  /-- Help on a command, or on all of them, in full or in short. -/
  | help (shape : Option CommandShape) (full : Bool)
  | version
  | invalid (flaw : ArgumentFlaw)

namespace Invocation

/-- What is asked for when reading ends early. -/
def ofStop (shape : Option CommandShape) : Stop → Invocation
  | .invalid flaw => invalid flaw
  | .help full => help shape full
  | .version => version

/-- Read the words after the name of a command. -/
def parseCommand (shape : CommandShape) (words : List String) : Invocation :=
  match shape.read words with
  | .error stop => ofStop (some shape) stop
  | .ok r =>
    match r.command? shape.name with
    | some c => command c
    | none => invalid (.unknown shape.name)

/-- Read the words after a question for help. -/
def parseHelp : List String → Invocation
  | [] => help none true
  | [name] =>
    match Command.topics.find? fun s => s.name == name with
    | some shape => help (some shape) true
    | none => invalid (.unknown name)
  | _ :: word :: _ => invalid (.unknown word)

/-- Read a command line. -/
def parse (words : List String) : Invocation :=
  match Reading.readAll Command.leadingOptions 0 {} words with
  | .error stop => ofStop none stop
  | .ok (_, []) => invalid (.missing "COMMAND")
  | .ok (r, name :: rest) =>
    if r.trailing then invalid (.unknown name)
    else if name = Command.helpShape.name then parseHelp rest
    else
      match Command.shapes.find? fun s => s.name == name with
      | some shape => parseCommand shape rest
      | none => invalid (.unknown name)

end Invocation

end CellSat
