import CellSat.Host
/-!
# A scratch host

A model of a machine: a directory tree that is empty but for given files, one other program with
prepared replies, and what was printed.

* `Scratch`, `Scratch.ofFiles`;
* `Scratch.lookup`, `Scratch.write`, `Scratch.make`: the file system;
* the instance of `Host` for computations on a scratch state.
-/

namespace CellSat

/-- What a name of a directory stands for. -/
inductive DirectoryEntry where
  | file (text : String)
  | directory
  deriving DecidableEq, Repr

/-- The other program of a scratch host. -/
inductive StandIn where
  /-- It prints its replies, one for each call. -/
  | replies (name : String) (texts : List String)
  /-- It never ends. -/
  | hangs (name : String)
  deriving DecidableEq, Repr

/-- The name of a program. -/
def StandIn.name : StandIn → String
  | replies name _ => name
  | hangs name => name

/-- A call of the program that ended: its arguments, and what the file of the last one held. -/
structure Call where
  arguments : List String
  input : Option String
  deriving DecidableEq, Repr

/-- The state of a scratch host. Entries are keyed by the names on the way from the top. -/
structure Scratch where
  entries : List (List String × DirectoryEntry) := []
  program : Option StandIn := none
  /-- The calls that ended, the last one first. -/
  calls : List Call := []
  environment : List (String × String) := []
  output : String := ""
  errors : String := ""

namespace Scratch

/-- The entry of a place. The top is a directory. -/
def entryAt (s : Scratch) (place : List String) : Option DirectoryEntry :=
  if place = [] then some .directory else s.entries.lookup place

/-- Put an entry in a place. -/
def put (s : Scratch) (place : List String) (entry : DirectoryEntry) : Scratch :=
  { s with entries := (s.entries.filter fun e => e.1 ≠ place) ++ [(place, entry)] }

/-- Whether a name has more bytes than a file system keeps. -/
def isOverlong (name : String) : Bool := 255 < name.utf8ByteSize

/-- The segments of a path that can be walked from the top. -/
def segmentsOf (path : Path) : Except FileError (List String) :=
  if path.text.contains (Char.ofNat 0) then .error .invalidName
  else if 4096 ≤ path.text.utf8ByteSize then .error .nameTooLong
  else if path.text == "" || path.isAbsolute then .error .notFound
  else .ok path.segments

/-- Walk from a directory along names. -/
def walk (s : Scratch) (place : List String) : List String → Except FileError (List String)
  | [] => .ok place
  | name :: names =>
    match s.entryAt place with
    | none => .error .notFound
    | some (.file _) => .error .notDirectory
    | some .directory =>
      if name = "" ∨ name = "." then walk s place names
      else if name = ".." then walk s place.dropLast names
      else if isOverlong name then .error .nameTooLong
      else walk s (place ++ [name]) names

/-- Where a path leads. -/
def lookup (s : Scratch) (path : Path) : Except FileError (List String × DirectoryEntry) := do
  let place ← s.walk [] (← segmentsOf path)
  match s.entryAt place with
  | none => .error .notFound
  | some entry => return (place, entry)

/-- The directory that a new last segment of a path would be put into, and that segment. -/
def lookupNew (s : Scratch) (segments : List String) : Except FileError (List String × String) :=
  match segments.reverse with
  | [] => .error .notFound
  | name :: before => do
    let place ← s.walk [] (before.reverse ++ ["."])
    match s.entryAt place with
    | none => .error .notFound
    | some (.file _) => .error .notDirectory
    | some .directory => if isOverlong name then .error .nameTooLong else return (place, name)

/-- Segments without those at the end that mean nothing. -/
def trimSegments (segments : List String) : List String :=
  (segments.reverse.dropWhile (· == "")).reverse

/-- Replace what a file holds. A path that ends with a slash is meant for a directory. -/
def write (s : Scratch) (path : Path) (text : String) : Except FileError Scratch := do
  let (place, name) ← s.lookupNew (trimSegments (← segmentsOf path))
  if path.segments.getLast? = some "" ∨ name = "." ∨ name = ".." then .error .isDirectory
  else
    match s.entryAt (place ++ [name]) with
    | some .directory => .error .isDirectory
    | _ => return s.put (place ++ [name]) (.file text)

/-- Create a directory. -/
def make (s : Scratch) (path : Path) : Except FileError Scratch := do
  let (place, name) ← s.lookupNew (trimSegments (← segmentsOf path))
  if name = "." ∨ name = ".." then .error .alreadyExists
  else
    match s.entryAt (place ++ [name]) with
    | some _ => .error .alreadyExists
    | none => return s.put (place ++ [name]) .directory

/-- Put a file in a place, creating the directories on the way. -/
def putFile (s : Scratch) (path text : String) : Scratch :=
  let place := (Text.splitAt '/' path).filter fun name => name ≠ "" ∧ name ≠ "."
  let s := (List.range (place.length - 1)).foldl (fun s k =>
    let above := place.take (k + 1)
    if (s.entryAt above).isSome then s else s.put above .directory) s
  s.put place (.file text)

/-- A host with files. -/
def ofFiles (files : List (String × String)) : Scratch :=
  files.foldl (fun s f => s.putFile f.1 f.2) {}

/-- The files, by their paths. -/
def files (s : Scratch) : List (String × String) :=
  (s.entries.filterMap fun e => match e.2 with
    | .file text => some (Text.join "/" e.1, text)
    | .directory => none).mergeSort fun a b => (compare a.1 b.1).isLE

/-- What a path holds. -/
def content (s : Scratch) (path : Path) : Except FileError Content := do
  match (← s.lookup path).2 with
  | .file text => return .text text
  | .directory => return .directory

/-- The text of the file that the last of some arguments names. -/
def inputOf (s : Scratch) (arguments : List String) : Option String := do
  let name ← arguments.getLast?
  match s.content ⟨name⟩ with
  | .ok (.text t) => some t
  | _ => none

/-- Run the other program. -/
def run (s : Scratch) (name : String) (arguments : List String) (output : Path)
    (timeout : Option Nat) : Launch × Scratch :=
  match s.program with
  | none => (.notStarted .notFound, s)
  | some program =>
    if program.name ≠ name then (.notStarted .notFound, s)
    else if timeout = some 0 then (.timedOut, s)
    else
      match program with
      | .hangs _ => (.timedOut, s)
      | .replies _ texts =>
        let reply := texts.getD s.calls.length ""
        let call : Call := ⟨arguments, s.inputOf arguments⟩
        let s := { s with calls := call :: s.calls }
        match s.write output reply with
        | .ok s => (.finished, s)
        | .error _ => (.finished, s)

end Scratch

/-- Change a state if that succeeds. -/
def Scratch.update (change : Scratch → Except FileError Scratch) :
    StateM Scratch (Except FileError Unit) := do
  match change (← get) with
  | .ok s => set s; return .ok ()
  | .error e => return .error e

instance : Host (StateM Scratch) where
  openFile path := return (← get).content path
  pathExists path := return ((← get).lookup path).toOption.isSome
  isDirectory path := return match (← get).lookup path with
    | .ok (_, .directory) => true
    | _ => false
  writeFile path text := Scratch.update fun s => s.write path text
  makeDirectory path := Scratch.update fun s => s.make path
  launch name arguments output timeout := modifyGet fun s => s.run name arguments output timeout
  print text := modify fun s => { s with output := s.output ++ text }
  printError text := modify fun s => { s with errors := s.errors ++ text }
  environment name := return (← get).environment.lookup name
  time := return 0

end CellSat
