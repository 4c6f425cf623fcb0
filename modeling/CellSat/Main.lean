import CellSat.Command.Execute
/-!
# The program

The machine that the program runs on is a host. It starts no other programs, so that a solver
program is never found on it.
-/

namespace CellSat

/-- What kind of file error an error of the system is. -/
def FileError.ofSystem : IO.Error → FileError
  | .alreadyExists .. => .alreadyExists
  | .inappropriateType _ 20 _ => .notDirectory
  | .inappropriateType _ 21 _ => .isDirectory
  | .invalidArgument _ 36 _ => .nameTooLong
  | .invalidArgument .. => .invalidName
  | _ => .notFound

/-- Carry a request out and keep its error. -/
def attempt {α : Type} (x : IO α) : IO (Except FileError α) := do
  try return .ok (← x)
  catch e => return .error (.ofSystem e)

/-- Whether a request is carried out. -/
def succeeds {α : Type} (x : IO α) : IO Bool := do
  return (← attempt x).toBool

/-- What a file holds, where a directory can be opened but not read. -/
def readContent (path : String) : IO Content := do
  let handle ← IO.FS.Handle.mk path .read
  match ← attempt handle.readBinToEnd with
  | .ok bytes => return .ofBytes bytes
  | .error _ => return .directory

instance : Host IO where
  openFile path := attempt (readContent path.text)
  pathExists path := succeeds (IO.FS.Handle.mk path.text .read)
  isDirectory path := do
    match ← attempt (readContent path.text) with
    | .ok .directory => return true
    | _ => return false
  writeFile path text := attempt (IO.FS.writeFile path.text text)
  makeDirectory path := attempt (IO.FS.createDir path.text)
  launch _ _ _ _ := return .notStarted .notFound
  print text := do
    let output ← IO.getStdout
    output.putStr text
    output.flush
  printError text := IO.eprint text
  environment name := IO.getEnv name
  time := IO.monoNanosNow

end CellSat

/-- Run the program with its arguments. -/
def main (arguments : List String) : IO UInt32 := do
  return (← CellSat.Command.invoke CellSat.Search.solve arguments).toUInt32
