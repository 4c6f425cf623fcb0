import CellSat.Clause
import CellSat.Counter.Adder
import CellSat.Failure
import CellSat.Grid.Build
/-!
# Bounds on the number of true literals

The outputs of a network are compared with a limit bit by bit: because the outputs may be larger
than the count, it is enough to fix them to the limit.

* `Comparator`: at most or at least;
* `Count`, `Count.atMost`, `Count.atLeast`: the network of a bound with its clauses;
* `Count.atMost32`, `Count.atLeast32`, `Comparator.count`: with temporaries of 32 bits;
* `Bound`, `Bound.clauses64`: a bound on the living cells, or on helpers, of one generation.
-/

namespace CellSat

/-- The direction of a bound. -/
inductive Comparator where
  | atMost
  | atLeast
  deriving DecidableEq, Repr

/-- The text of a direction in comments. -/
def Comparator.render : Comparator → String
  | atMost => "LessThanOrEqual"
  | atLeast => "GreaterThanOrEqual"

/-- The name of a direction in settings. -/
def Comparator.name : Comparator → String
  | atMost => "at_most"
  | atLeast => "at_least"

/-- The direction of a name. -/
def Comparator.ofName? (name : String) : Option Comparator :=
  [atMost, atLeast].find? fun c => c.name == name

/-- A bounded count. -/
structure Count where
  /-- The outputs, the lowest binary digit first. -/
  outputs : List Literal
  /-- The adders that drive them. -/
  adders : List Adder
  /-- The limit as a clause for each digit. -/
  constraints : List Disjunction
  deriving DecidableEq, Repr

namespace Count

/-- The clauses of the adders. -/
def adderClauses (c : Count) : List Disjunction := Adder.clauses c.adders

/-- All clauses of a count. -/
def clauses (c : Count) : List Disjunction := c.adderClauses ++ c.constraints

/-- The number of temporaries that a count uses. -/
def temporaries (c : Count) : Nat := 2 * c.adders.length

/-- The binary digit of a limit in 64-bit two's complement, the sign being continued. -/
def limitBit (limit : Int) (digit : Nat) : Bool := limit / (Nat.pow 2 (min digit 63) : Nat) % 2 != 0

/-- Fix outputs to the digits of a limit. -/
def fixOutputs (limit : Int) : Nat → List Literal → List Disjunction
  | _, [] => []
  | digit, l :: ls =>
    [l.flipIf !limitBit limit digit] :: fixOutputs limit (digit + 1) ls

/-- Bound a network. With nothing to count only a negative limit is violated. -/
def ofNetwork (limit : Int) (network : List Adder × List Literal) : Count :=
  let (adders, outputs) := network
  let constraints :=
    if outputs = [] then (if limit < 0 then [[]] else []) else fixOutputs limit 0 outputs
  ⟨outputs, adders, constraints⟩

/-- At most `limit` of the literals are true. -/
def atMost (issued : Nat) (literals : List Literal) (limit : Int) : Count :=
  ofNetwork limit (Network.build issued literals)

/-- At least `limit` of the literals are true: at most the others of their negations are. -/
def atLeast (issued : Nat) (literals : List Literal) (limit : Int) : Checked Count := do
  let others ← Word.sub literals.length limit
  return atMost issued (literals.map Literal.negate) others

/-- At most `limit` of the literals are true, if there are numbers for the temporaries. -/
def atMost32 (issued : Nat) (literals : List Literal) (limit : Int) : Checked Count := do
  return ofNetwork limit (← Network.build32 issued literals)

/-- At least `limit` of the literals are true, if there are numbers for the temporaries. -/
def atLeast32 (issued : Nat) (literals : List Literal) (limit : Int) : Checked Count := do
  let others ← Word.sub literals.length limit
  atMost32 issued (literals.map Literal.negate) others

end Count

/-- The count of a bound in a given direction. -/
def Comparator.count (comparator : Comparator) (issued : Nat) (literals : List Literal)
    (limit : Int) : Checked Count :=
  match comparator with
  | atMost => Count.atMost32 issued literals limit
  | atLeast => Count.atLeast32 issued literals limit

/-- A bound on a generation: on its living cells, or on a helper variable of its cells. -/
structure Bound where
  comparator : Comparator
  size : Int
  generation : Int := 0
  helper : Option String := none
  deriving DecidableEq, Repr

namespace Bound

/-- What a bound counts: the variables of the inside cells of its generation. -/
def literals (b : Bound) (lattice : Lattice) (grid : List Node) : List Literal :=
  let start := match b.helper with
    | none => ""
    | some name => name ++ "$"
  (lattice.layer grid b.generation).map fun n => { name := start ++ n.name }

/-- The comment in front of the clauses of a bound. -/
def heading (b : Bound) : Clause :=
  .comment ("Population constraint " ++ b.comparator.render ++ " " ++ toString b.size)

/-- The clauses of a bound, and the number of temporaries that are issued after it. -/
def clauses64 (b : Bound) (lattice : Lattice) (grid : List Node) (issued : Nat) :
    Checked (List Clause × Nat) := do
  let count ← b.comparator.count issued (b.literals lattice grid) b.size
  return (b.heading :: count.clauses.map .disjunction, issued + count.temporaries)

end Bound

end CellSat
