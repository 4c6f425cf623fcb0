import CellSat.Literal
import CellSat.Text.Blank
import CellSat.Word
import Std.Data.TreeMap
/-!
# Numbered variables

A symbol table numbers names, in both directions.

* `SymbolTable`, `SymbolTable.ofNames`, `SymbolTable.ofNames32`, `SymbolTable.insert`;
* `SymbolTable.index?`, `SymbolTable.name?`, `SymbolTable.encode32?`;
* `VariableCounts`: how many names there are of each kind.
-/

namespace CellSat

/-- Names with numbers, and numbers with names. -/
structure SymbolTable where
  indices : Std.TreeMap String Int := ∅
  names : Std.TreeMap Int String := ∅

namespace SymbolTable

/-- Give a name a number. -/
def insert (t : SymbolTable) (name : String) (index : Int) : SymbolTable :=
  { indices := t.indices.insert name index, names := t.names.insert index name }

/-- Number names from a given number on. -/
def numberFrom (t : SymbolTable) : Int → List String → SymbolTable
  | _, [] => t
  | index, name :: names => numberFrom (t.insert name index) (index + 1) names

/-- Number names in increasing order from 1 on. -/
def ofNames (names : List String) : SymbolTable :=
  numberFrom {} 1 (sortedSet compare names)

/-- The number of a name. -/
def index? (t : SymbolTable) (name : String) : Option Int := t.indices[name]?

/-- The name of a number. -/
def name? (t : SymbolTable) (index : Int) : Option String := t.names[index]?

/-- The signed number of a literal. -/
def encode32? (t : SymbolTable) (l : Literal) : Checked (Option Int) :=
  match t.index? l.name with
  | none => .ok none
  | some index =>
    if l.positive then .ok (some index) else do return some (← Word.int32 (-index))

/-- How many names have a number. -/
def size (t : SymbolTable) : Nat := t.indices.size

/-- Number names whose numbers have to fit in 32 bits. -/
def ofNames32 (names : List String) : Checked SymbolTable := do
  let table := ofNames names
  let _ ← Word.int32 table.size
  return table

/-- The names with their numbers, in increasing order of the names. -/
def toList (t : SymbolTable) : List (String × Int) := t.indices.toList

end SymbolTable

/-- The kinds of variable names. -/
inductive VariableKind where
  | temporary
  | helper
  | bit
  | cell
  | other
  deriving DecidableEq, Repr

/-- The kind of a variable name. -/
def VariableKind.ofName (name : String) : VariableKind :=
  if name.startsWith "\x7bx" then .temporary
  else if name.toList.contains '$' then .helper
  else if name.toList.contains '#' then .bit
  else if name.startsWith "c_" then .cell
  else .other

/-- How many variables there are of each kind. -/
structure VariableCounts where
  total : Nat
  cells : Nat
  helpers : Nat
  bits : Nat
  temporaries : Nat
  deriving DecidableEq, Repr

/-- The counts of a table. -/
def SymbolTable.counts (t : SymbolTable) : VariableCounts :=
  let kinds := t.toList.map fun e => VariableKind.ofName e.1
  ⟨t.size, kinds.count .cell, kinds.count .helper, kinds.count .bit, kinds.count .temporary⟩

/-- The counts as text. -/
def VariableCounts.render (c : VariableCounts) : String :=
  "Variable Statistics:\n" ++
    "  Total variables: " ++ toString c.total ++ "\n" ++
    "  Cell variables: " ++ toString c.cells ++ "\n" ++
    "  Helper variables: " ++ toString c.helpers ++ "\n" ++
    "  Tag bit variables: " ++ toString c.bits ++ "\n" ++
    "  Temporary variables: " ++ toString c.temporaries ++ "\n"

end CellSat
