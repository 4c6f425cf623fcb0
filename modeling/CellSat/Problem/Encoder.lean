import CellSat.Cnf.Formula
import CellSat.Counter.Bound
import CellSat.Symmetry.Orbit
import CellSat.Template.Inflate
/-!
# Encoders

An encoder collects the clauses of one problem over the grid of one lattice: the instances of rules
and the bounds on populations, whose temporaries are numbered through.

* `lifeTemplate`: the rule of Life, one clause for each way of counting neighbours;
* `Encoder`, `Encoder.ofLattice`, `Encoder.addRule`, `Encoder.addBound`, `Encoder.addClauses`,
  `Encoder.reset`, `Encoder.compile`;
* `Statistics`, `Encoder.statistics`: the size of an encoding.
-/

namespace CellSat

/-- The rule of Life. The symmetries of a neighbourhood give the other instances. -/
def lifeTemplateText : String :=
  "# death by loneliness or crowding\n" ++
    "~G <- ~N ~NE ~E ~SE ~S ~SW ~W\n" ++
    "~G <- N NE E SE\n" ++
    "# birth on 3 neighbors\n" ++
    "G <- N NE E ~SE ~S ~SW ~W ~NW\n" ++
    "# survival on 2 or 3 neighbors\n" ++
    "~G <- ~O N NE ~E ~SE ~S ~SW ~W ~NW\n" ++
    "G <- O N NE ~E ~SE ~S ~SW ~W ~NW\n"

/-- The clauses of the rule of Life. -/
def lifeTemplate : Result (List Clause) := Clause.parseText lifeTemplateText

/-- The clauses of a problem on a grid. -/
structure Encoder where
  lattice : Lattice
  grid : List Node
  /-- The number of temporaries in use. -/
  issued : Nat := 0
  clauses : List Clause := []
  /-- The number of template clauses after their symmetries. -/
  ruleLines : Nat := 0
  boundCount : Nat := 0

/-- The number of disjunctions of a list. -/
def Clause.countDisjunctions (cs : List Clause) : Nat := cs.countP fun c => !c.isComment

namespace Encoder

/-- An encoder without clauses on the grid that is reached from the origin. -/
def ofLattice (lattice : Lattice) : Checked Encoder := do
  return { lattice, grid := ← lattice.grid64 Node.origin }

/-- Add every instance of a template under symmetries. The cell of the next generation is shown as
the consequent unless another one is given. -/
def addRule (e : Encoder) (template : List Clause) (basis : Basis) (consequent : Option String)
    (turn : Turn) : Result Encoder := do
  let expanded ← Clause.expandSymmetry basis.generators template
  let clauses ← Template.inflateGrid64 e.lattice e.grid expanded
    (some (consequent.getD Symbol.next)) turn
  return { e with
    ruleLines := e.ruleLines + Clause.countDisjunctions expanded
    clauses := e.clauses ++ clauses }

/-- Bound a generation. -/
def addBound (e : Encoder) (b : Bound) : Checked Encoder := do
  let (clauses, issued) ← b.clauses64 e.lattice e.grid e.issued
  return { e with issued, boundCount := e.boundCount + 1, clauses := e.clauses ++ clauses }

/-- Bound generations in turn. -/
def addBounds (e : Encoder) : List Bound → Checked Encoder
  | [] => .ok e
  | b :: bs => do addBounds (← e.addBound b) bs

/-- Add clauses as they are. -/
def addClauses (e : Encoder) (clauses : List Clause) : Encoder :=
  { e with clauses := e.clauses ++ clauses }

/-- Forget everything but the grid. -/
def reset (e : Encoder) : Encoder := { lattice := e.lattice, grid := e.grid }

/-- Number the clauses. -/
def compile (e : Encoder) : Result Formula := Formula.compile e.clauses

end Encoder

/-! ## Statistics -/

/-- The size of an encoding. -/
structure Statistics where
  folding : Folding
  period : Int
  gridNodes : Nat
  cellsPerGeneration : Nat
  ruleLines : Nat
  populationBounds : Nat
  symbolicClauses : Nat
  temporaryVariables : Nat
  deriving DecidableEq, Repr

/-- The statistics of an encoder. -/
def Encoder.statistics (e : Encoder) : Statistics where
  folding := e.lattice.folding
  period := e.lattice.clock.period
  gridNodes := e.grid.length
  cellsPerGeneration := (e.lattice.layer e.grid 0).length
  ruleLines := e.ruleLines
  populationBounds := e.boundCount
  symbolicClauses := Clause.countDisjunctions e.clauses
  temporaryVariables := e.issued

namespace Statistics

/-- The statistics as text. -/
def render (s : Statistics) : String :=
  "Encoding Statistics:\n" ++
    "  Grid: " ++ s.folding.render ++ " period " ++ toString s.period ++ "\n" ++
    "  Nodes: " ++ toString s.gridNodes ++ " (" ++ toString s.cellsPerGeneration ++
      " cells per generation)\n" ++
    "  Rule lines after symmetry: " ++ toString s.ruleLines ++ "\n" ++
    "  Population bounds: " ++ toString s.populationBounds ++ "\n" ++
    "  Symbolic clauses: " ++ toString s.symbolicClauses ++ "\n" ++
    "  Temporary variables: " ++ toString s.temporaryVariables ++ "\n"

/-- The statistics on one line, with the numbers of a formula. -/
def line (s : Statistics) (variableCount clauseCount : Nat) : String :=
  s.folding.render ++ " p" ++ toString s.period ++ ": " ++ toString s.cellsPerGeneration ++
    " cells/generation, " ++ toString variableCount ++ " variables, " ++ toString clauseCount ++
    " clauses"

end Statistics

end CellSat
