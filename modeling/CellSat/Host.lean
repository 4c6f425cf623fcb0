import CellSat.Report
/-!
# Hosts

What a program can ask of the machine it runs on. The program is written for any host, so that it
runs on a computer and on a model of one alike.

* `Host`: the requests;
* `Run`: computations on a host that may fail with a report;
* `Run.within`: an activity around a computation;
* `Run.openFile`, `Run.readText`, `Run.writeFile`, `Run.createDirectories`: requests that fail with
  a report.
-/

namespace CellSat

/-- How running another program ended. -/
inductive Launch where
  | notStarted (cause : FileError)
  | timedOut
  | finished
  deriving DecidableEq, Repr

/-- The requests of a program to its host. -/
class Host (m : Type → Type) where
  /-- What a file holds. -/
  openFile : Path → m (Except FileError Content)
  /-- Whether a path leads somewhere. -/
  pathExists : Path → m Bool
  /-- Whether a path leads to a directory. -/
  isDirectory : Path → m Bool
  /-- Replace what a file holds. -/
  writeFile : Path → String → m (Except FileError Unit)
  /-- Create one directory. -/
  makeDirectory : Path → m (Except FileError Unit)
  /-- Run a program with arguments, its output going to a file, for so many milliseconds at most. -/
  launch : String → List String → Path → Option Nat → m Launch
  /-- Print on the standard output. -/
  print : String → m Unit
  /-- Print on the standard error output. -/
  printError : String → m Unit
  /-- The value of an environment variable. -/
  environment : String → m (Option String)
  /-- A clock in nanoseconds. -/
  time : m Nat

/-- A computation that may fail asks the same host. -/
instance {m : Type → Type} {ε : Type} [Monad m] [Host m] : Host (ExceptT ε m) where
  openFile path := ExceptT.lift (Host.openFile path)
  pathExists path := ExceptT.lift (Host.pathExists path)
  isDirectory path := ExceptT.lift (Host.isDirectory path)
  writeFile path text := ExceptT.lift (Host.writeFile path text)
  makeDirectory path := ExceptT.lift (Host.makeDirectory path)
  launch name arguments output timeout := ExceptT.lift (Host.launch name arguments output timeout)
  print text := ExceptT.lift (Host.print text)
  printError text := ExceptT.lift (Host.printError text)
  environment name := ExceptT.lift (Host.environment name)
  time := ExceptT.lift Host.time

/-- A computation on a host that may fail with a report. -/
abbrev Run (m : Type → Type) := ExceptT Report m

namespace Run

variable {m : Type → Type} [Monad m] {α : Type}

/-- A result whose failure is reported. -/
def ofResult : Result α → Run m α
  | .ok a => pure a
  | .error f => throw (Report.ofFailure f)

/-- A checked computation whose fault is reported. -/
def ofChecked (x : Checked α) : Run m α := ofResult x.toResult

/-- A file request whose error is reported. -/
def ofFile : Except FileError α → Run m α
  | .ok a => pure a
  | .error e => throw (Report.ofFile e)

/-- A computation as part of an activity. -/
def within (activity : Activity) (x : Run m α) : Run m α :=
  ExceptT.adapt (Report.within activity) x

variable [Host m]

/-- What a file holds. -/
def openFile (path : Path) : Run m Content := do
  ofFile (← Host.openFile path)

/-- The text of a file. -/
def readText (path : Path) : Run m String := do
  ofFile (← openFile path).wholeText

/-- Replace what a file holds. -/
def writeFile (path : Path) (text : String) : Run m Unit := do
  ofFile (← Host.writeFile path text)

/-- Create an empty file, or empty an old one. -/
def createFile (path : Path) : Run m Unit := writeFile path ""

/-- Print a line. -/
def printLine (text : String) : Run m Unit := Host.print (text ++ "\n")

/-- Create a directory that may be there already. -/
def ensureDirectory (path : Path) : m (Except FileError Unit) := do
  match ← Host.makeDirectory path with
  | .ok () => return .ok ()
  | .error e => return if ← Host.isDirectory path then .ok () else .error e

/-- Create a directory and those that hold it, for so many levels. -/
def createDirectoriesIn : Nat → Path → m (Except FileError Unit)
  | 0, _ => return .error .notFound
  | depth + 1, path => do
    if path.text == "" then return .ok ()
    else
      match ← Host.makeDirectory path with
      | .ok () => return .ok ()
      | .error .notFound =>
        match path.parent? with
        | none => return .error .notFound
        | some parent =>
          match ← createDirectoriesIn depth parent with
          | .error e => return .error e
          | .ok () => ensureDirectory path
      | .error e => return if ← Host.isDirectory path then .ok () else .error e

/-- Create a directory and those that hold it. -/
def createDirectories (path : Path) : Run m Unit := do
  ofFile (← createDirectoriesIn (path.text.length + 2) path)

end Run

end CellSat
